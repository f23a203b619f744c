import PagedIndex.Proofs.Contents.Register
import PagedIndex.Proofs.Store.Counting

/-! The accounts of a store over a whole run. Whatever was put into a store was taken out again,
replaced where it stood, dropped with everything else, or is still there; and every scan that was
asked for was opened, refused for its arguments or refused for its cursor.
-/

namespace PagedIndex

open Std

/-- What is counted for writes. -/
def Counter.OfWrites : Counter → Prop
  | inserts | removes | noopRemoves => True
  | scans | scansRejected | cursorResumes | staleCursorResumes | unknownCursors | treeCopies
  | bucketCopies | readCopies => False

variable [Ord K]

/-- A write replaces the entry of a record where it stands. An update that finds its record under
the old key takes it from there, even if it puts it back under the same key.
-/
def Register.replaces (r : Register K V) : Write K V → Bool
  | .insert key entry => r.standsUnder key entry.record
  | .update oldKey newKey entry =>
    !r.standsUnder oldKey entry.record && r.standsUnder newKey entry.record
  | .remove _ _ | .clear => false

/-! ## Sizes -/

namespace Contents

variable {c : Contents K V}

/-- The number of entries that a write drops at once. -/
def drops (c : Contents K V) : Write K V → Nat
  | .clear => c.tree.size
  | .insert _ _ | .remove _ _ | .update _ _ _ => 0

theorem links_insertion (c : Contents K V) (key : K) (entry : Entry V)
    : (c.insertion key entry).countP (·.counter == .inserts) = 1 := by
  unfold insertion removal
  split
  · simp [Change.counter]
  · split
    · simp [Change.counter]
    · split <;> simp [Change.counter]

/-- The plan of a write links one entry, if the write puts one somewhere. -/
theorem links_plan (c : Contents K V) (w : Write K V)
    : (c.plan w).countP (·.counter == .inserts) = if w.target?.isSome then 1 else 0 := by
  cases w with
  | insert key entry => exact c.links_insertion key entry
  | remove key record =>
      simp only [plan, removal]
      split <;> simp [Change.counter, Write.target?]
  | update oldKey newKey entry =>
      simp only [plan, relocation, removal, List.countP_append, links_insertion]
      split <;> simp [Change.counter, Write.target?]
  | clear => rfl

/-- A write is a removal that finds nothing. -/
def misses (c : Contents K V) : Write K V → Bool
  | .remove key record => !c.tree.holds key record
  | .insert _ _ | .update _ _ _ | .clear => false

/-- Only in the plan of such a write a removal misses: a record that has to make way for itself is
where the locator has it, and an update has looked first.
-/
theorem Coherent.misses_plan [OrientedOrd K] (h : c.Coherent) (w : Write K V)
    : (c.plan w).countP (·.counter == .noopRemoves) = (c.misses w).toNat := by
  have insertion (key : K) (entry : Entry V)
      : (c.insertion key entry).countP (·.counter == .noopRemoves) = 0 := by
    rcases h.insertion_cases key entry with ⟨_, plan⟩ | ⟨_, _, _, _, plan⟩ <;> rw [plan] <;> rfl
  cases w with
  | insert key entry => exact insertion key entry
  | remove key record =>
      simp only [plan, removal, misses]
      cases c.tree.holds key record <;> rfl
  | update oldKey newKey entry =>
      simp only [plan, misses]
      rcases relocation_cases c oldKey newKey entry with ⟨_, plan⟩ | ⟨_, plan⟩
      · rw [plan]
        rfl
      · rw [plan]
        exact insertion newKey entry
  | clear => rfl

namespace Coherent

variable [TransOrd K]

/-- Unlinking a record takes one entry away. -/
theorem size_unlink (h : c.Coherent) {key : K} {record : RecordKey}
    (held : c.tree.holds key record)
    : (c.apply (.unlink key record)).tree.size + 1 = c.tree.size := by
  have something : 0 < c.tree.size := by
    rw [Tree.holds_eq] at held
    obtain ⟨slot, found⟩ := Option.isSome_iff_exists.mp held
    obtain ⟨leaf, member, _, there, _⟩ := h.tree.slot?_eq_some_iff.mp found
    rw [h.tree.size_eq, List.length_pos_iff_exists_mem]
    exact ⟨slot, List.mem_flatMap.mpr ⟨leaf, member, there⟩⟩
  simp only [apply, Tree.erase, held, if_true]
  omega

/-- A move keeps the number of entries. -/
theorem size_move (h : c.Coherent) {oldKey : K} (key : K) {entry : Entry V}
    (held : c.tree.holds oldKey entry.record)
    : (c.applyAll [.unlink oldKey entry.record, .link key entry]).tree.size = c.tree.size := by
  have gone : (c.apply (.unlink oldKey entry.record)).tree.holds key entry.record = false := by
    refine Bool.eq_false_iff.mpr fun there => ?_
    obtain ⟨p, live, _⟩ := (h.unlink held).live_of_holds there
    simp [apply, Locator.live?_retire] at live
  rw [← h.size_unlink held]
  change (Contents.apply _ (.link key entry)).tree.size = _
  simp only [apply, Tree.insert] at gone ⊢
  simp [gone]

/-- An insertion adds an entry, or replaces one, or takes one away first. -/
theorem size_insert (h : c.Coherent) (key : K) (entry : Entry V)
    : (c.insert key entry).tree.size
        + (c.insertion key entry).countP (·.counter == .removes)
        + (c.register.standsUnder key entry.record).toNat
      = c.tree.size + 1 := by
  rw [h.standsUnder_register, Contents.insert]
  rcases h.insertion_cases key entry with ⟨_, plan⟩ | ⟨p, live, elsewhere, held, plan⟩
  · rw [plan]
    simp only [Contents.applyAll, List.foldl_cons, List.foldl_nil, apply, Tree.insert]
    cases c.tree.holds key entry.record <;> simp [Change.counter]
  · have apart : c.tree.holds key entry.record = false := by
      refine Bool.eq_false_iff.mpr fun there => elsewhere ?_
      obtain ⟨q, again, here⟩ := h.live_of_holds there
      obtain rfl := Option.some.inj (live.symm.trans again)
      exact here
    rw [plan, h.size_move key held, apart]
    simp [Change.counter]

/-- What a write puts into an index is there afterwards, makes up for what the write takes away, or
replaces something.
-/
theorem size_perform (h : c.Coherent) (w : Write K V)
    : (c.perform w).tree.size + (c.plan w).countP (·.counter == .removes)
        + (c.register.replaces w).toNat + c.drops w
      = c.tree.size + (c.plan w).countP (·.counter == .inserts) := by
  rw [c.links_plan]
  cases w with
  | insert key entry => exact h.size_insert key entry
  | remove key record =>
      simp only [Contents.perform, Contents.remove, plan, removal, Register.replaces, drops]
      by_cases held : c.tree.holds key record = true
      · have less := h.size_unlink held
        simpa [held, Contents.applyAll, Change.counter, Write.target?] using less
      · simp [held, Contents.applyAll, apply, Change.counter, Write.target?]
  | update oldKey newKey entry =>
      simp only [Contents.perform, Contents.update, plan, Register.replaces, drops]
      rcases relocation_cases c oldKey newKey entry with ⟨held, plan⟩ | ⟨absent, plan⟩
      · rw [plan, h.size_move newKey held, h.standsUnder_register, held]
        simp [Change.counter, Write.target?]
      · have apart : c.register.standsUnder oldKey entry.record = false := by
          rw [h.standsUnder_register, Bool.eq_false_iff]
          exact absent
        have inserted := h.size_insert newKey entry
        rw [plan, apart]
        simpa [Contents.insert, Write.target?] using inserted
  | clear =>
      simp [Contents.perform, cleared, Tree.cleared, plan, Register.replaces, drops,
        Write.target?]

end Coherent

end Contents

/-! ## Attempts -/

/-- An attempt comes to one of its three ends, and it is not resumed after nothing. -/
structure Attempt.Settled (a : Attempt K) : Prop where
  once : [a.opened, a.rejected, a.unknown].count true = 1
  resolved : a.resumed = true → a.resolution.isSome = true

namespace Store

variable {s : Store K V}

theorem settled_scan (s : Store K V) (d : Descriptor K)
    : (s.attempt d (s.scan d).1).Settled := by
  have course := s.scanCourse d
  generalize (s.scan d).1 = answer, (s.scan d).2 = t at course
  cases course with
  | refused invalid =>
      obtain ⟨reason, rfl⟩ := invalidArgument_of_validate invalid
      exact ⟨rfl, by simp [attempt, Fault.of?]⟩
  | empty valid nothing => exact ⟨rfl, by simp [attempt, nothing]⟩
  | fresh valid possible start => exact ⟨rfl, by simp [attempt, start]⟩
  | resumed valid possible carried resolved => exact ⟨rfl, by simp [attempt, carried, resolved]⟩
  | unknown valid possible carried unresolved => exact ⟨rfl, by simp [attempt, Fault.of?]⟩

theorem settled_page (s : Store K V) (d : Descriptor K) (limit : Nat)
    : (s.attempt d (s.page d limit).1).Settled := by
  by_cases none : limit = 0
  · have refused : (s.page d limit).1 = .error .zeroPageLimit := by simp [page, none]
    rw [refused]
    exact ⟨rfl, by simp [attempt, Fault.of?]⟩
  · rw [attempt_page none]
    exact s.settled_scan d

/-- Every scan that a request asks for comes to one end. -/
theorem settled_attempts (s : Store K V) (r : Request K V) {a : Attempt K}
    (asked : a ∈ s.attempts r)
    : a.Settled := by
  cases r with
  | write held w => simp [attempts] at asked
  | scan d => exact List.mem_singleton.mp asked ▸ s.settled_scan d
  | page d limit => exact List.mem_singleton.mp asked ▸ s.settled_page d limit
  | defaultPage d => exact List.mem_singleton.mp asked ▸ s.settled_page d s.pageSize
  | lookup d => exact List.mem_singleton.mp asked ▸ s.settled_scan d
  | lookupAny values =>
      obtain ⟨value, _, rfl⟩ := List.mem_map.mp asked
      exact s.settled_scan _

/-! ## What requests are counted as -/

/-- A request replaces the entry of a record where it stands. -/
def replaces (s : Store K V) : Request K V → Bool
  | .write _ w => s.contents.register.replaces w
  | .scan _ | .page _ _ | .defaultPage _ | .lookup _ | .lookupAny _ => false

/-- The number of entries that a request drops at once. -/
def drops (s : Store K V) : Request K V → Nat
  | .write _ w => s.contents.drops w
  | .scan _ | .page _ _ | .defaultPage _ | .lookup _ | .lookupAny _ => 0

/-- The scans that were asked for, in order. -/
def asked (history : List (Store K V × Request K V)) : List (Attempt K) :=
  history.flatMap fun x => x.1.attempts x.2

/-- Reading is not counted as writing. -/
theorem tally_of_reads {r : Request K V} (reads : r.Reads) {c : Counter} (writing : c.OfWrites)
    : s.tally r c = 0 := by
  have nothing (attempts : List (Attempt K)) : attempts.countP (·.counts c) = 0 := by
    refine List.countP_eq_zero.mpr fun a _ => ?_
    cases c <;> first | exact writing.elim | simp [Attempt.counts]
  cases r with
  | write held w => exact reads.elim
  | _ => exact nothing _

/-- Insertions are counted by the requests that put entries somewhere. -/
theorem tally_inserts (s : Store K V) (r : Request K V)
    : s.tally r .inserts = if r.places then 1 else 0 := by
  cases r with
  | write held w =>
      simp only [tally, Contents.links_plan]
      cases w <;> rfl
  | _ => apply tally_of_reads <;> trivial

/-- Removals that find nothing are counted by the requests that are such. -/
theorem tally_noopRemoves [OrientedOrd K] (h : s.contents.Coherent) (r : Request K V)
    : s.tally r .noopRemoves = if s.misses r then 1 else 0 := by
  cases r with
  | write held w =>
      have missed : s.misses (.write held w) = s.contents.misses w := by cases w <;> rfl
      rw [missed, tally, h.misses_plan, Bool.toNat, Bool.cond_eq_ite]
  | _ => apply tally_of_reads <;> trivial

/-- Whatever is not counted for writes is counted by the scans that were asked for. -/
theorem tally_attempts (s : Store K V) (r : Request K V) {c : Counter} (reading : ¬ c.OfWrites)
    : s.tally r c = (s.attempts r).countP (·.counts c) := by
  cases r with
  | write held w =>
      have none : (s.contents.plan w).countP (·.counter == c) = 0 := by
        refine List.countP_eq_zero.mpr fun change _ => ?_
        simp only [beq_iff_eq]
        rintro rfl
        cases change <;> exact reading trivial
      simp [tally, attempts, none]
  | _ => rfl

theorem total_cons (s : Store K V) (r : Request K V) (rest : List (Request K V)) (c : Counter)
    : s.total (r :: rest) c = s.tally r c + (s.serve r).total rest c := by
  simp [total, history]

theorem total_inserts (s : Store K V) (requests : List (Request K V))
    : s.total requests .inserts = (s.history requests).countP fun x => x.2.places := by
  induction requests generalizing s with
  | nil => rfl
  | cons r rest ih =>
      rw [total_cons, tally_inserts, ih, history, List.countP_cons, Nat.add_comm]

theorem total_attempts (s : Store K V) (requests : List (Request K V)) {c : Counter}
    (reading : ¬ c.OfWrites)
    : s.total requests c = (asked (s.history requests)).countP (·.counts c) := by
  induction requests generalizing s with
  | nil => rfl
  | cons r rest ih =>
      rw [total_cons, tally_attempts s r reading, ih, ← List.countP_append]
      rfl

/-! ## The balance -/

variable [TransOrd K]

theorem coherent_serve (h : s.contents.Coherent) (r : Request K V)
    : (s.serve r).contents.Coherent := by
  by_cases reads : r.Reads
  · rw [(s.twin_serve reads).contents]
    exact h
  · cases r with
    | write held w =>
        rw [serve, contents_perform]
        exact h.perform w
    | _ => exact absurd trivial reads

theorem total_noopRemoves (h : s.contents.Coherent) (requests : List (Request K V))
    : s.total requests .noopRemoves = (s.history requests).countP fun x => x.1.misses x.2 := by
  induction requests generalizing s with
  | nil => rfl
  | cons r rest ih =>
      rw [total_cons, tally_noopRemoves h, ih (coherent_serve h r), history, List.countP_cons,
        Nat.add_comm]

/-- The balance of one request. -/
theorem size_serve (h : s.contents.Coherent) (r : Request K V)
    : (s.serve r).size + s.tally r .removes + (if s.replaces r then 1 else 0) + s.drops r
      = s.size + s.tally r .inserts := by
  by_cases reads : r.Reads
  · have same : (s.serve r).size = s.size := by rw [size, (s.twin_serve reads).contents, size]
    have neither {c : Counter} (writing : c.OfWrites) : s.tally r c = 0 :=
      tally_of_reads reads writing
    rw [neither (c := .removes) trivial, neither (c := .inserts) trivial, same]
    cases r with
    | write held w => exact reads.elim
    | _ => rfl
  · cases r with
    | write held w =>
        have balance := h.size_perform w
        rw [← s.contents_perform held w] at balance
        cases replaced : s.contents.register.replaces w <;>
          simpa [tally, size, serve, replaces, drops, replaced] using balance
    | _ => exact absurd trivial reads

/-- The balance of a run, by induction over the run. -/
theorem size_serveAll (h : s.contents.Coherent) (requests : List (Request K V))
    : (s.serveAll requests).size + s.total requests .removes
        + ((s.history requests).countP fun x => x.1.replaces x.2)
        + ((s.history requests).map fun x => x.1.drops x.2).sum
      = s.size + s.total requests .inserts := by
  induction requests generalizing s with
  | nil => rfl
  | cons r rest ih =>
      have first := size_serve h r
      have later := ih (coherent_serve h r)
      rw [total_cons, total_cons, history, List.countP_cons, List.map_cons, List.sum_cons]
      change ((s.serve r).serveAll rest).size + _ + _ + _ = _
      simp only
      omega

/-! ## The accounts of a run -/

/-- What the counters of a store tell of the requests that it has served, each of which came to
another state of the store.
-/
structure Accounts (history : List (Store K V × Request K V)) (after : Store K V) : Prop where
  inserts : after.metrics.inserts = UInt64.ofNat (history.countP fun x => x.2.places)
  /-- What moves a record is never counted as a removal that finds nothing. -/
  noopRemoves
    : after.metrics.noopRemoves = UInt64.ofNat (history.countP fun x => x.1.misses x.2)
  /-- Whatever was put somewhere was taken away or replaced or dropped, or it is still there. -/
  balance
    : history.countP (fun x => x.2.places) < UInt64.size
      → after.metrics.inserts.toNat
        = after.metrics.removes.toNat + after.size
          + (history.countP fun x => x.1.replaces x.2)
          + (history.map fun x => x.1.drops x.2).sum
  /-- Every scan that was asked for came to one of three ends. -/
  once : ∀ a ∈ asked history, [a.opened, a.rejected, a.unknown].count true = 1
  scans : after.metrics.scans = UInt64.ofNat ((asked history).countP (·.opened))
  scansRejected : after.metrics.scansRejected = UInt64.ofNat ((asked history).countP (·.rejected))
  unknownCursors : after.metrics.unknownCursors = UInt64.ofNat ((asked history).countP (·.unknown))
  cursorResumes
    : after.metrics.cursorResumes = UInt64.ofNat ((asked history).countP (·.resumedLive))
  staleCursorResumes
    : after.metrics.staleCursorResumes = UInt64.ofNat ((asked history).countP (·.resumedStale))
  resumes
    : after.metrics.cursorResumes + after.metrics.staleCursorResumes
      = UInt64.ofNat ((asked history).countP (·.resumed))

omit [TransOrd K] in
/-- A scan that was resumed was so after a live record or after a removed one, not both. -/
theorem countP_resumed {attempts : List (Attempt K)} (settled : ∀ a ∈ attempts, a.Settled)
    : attempts.countP (·.resumed)
      = attempts.countP (·.resumedLive) + attempts.countP (·.resumedStale) := by
  induction attempts with
  | nil => rfl
  | cons a rest ih =>
      have split : (if a.resumed then 1 else 0)
          = (if a.resumedLive then 1 else 0) + if a.resumedStale then 1 else 0 := by
        by_cases resumed : a.resumed = true
        · obtain ⟨r, found⟩ := Option.isSome_iff_exists.mp
            ((settled a List.mem_cons_self).resolved resumed)
          cases stale : r.isStale <;>
            simp only [Attempt.resumedLive, Attempt.resumedStale, resumed, found, stale,
              Option.any_some] <;> rfl
        · simp only [Attempt.resumedLive, Attempt.resumedStale, resumed, Bool.false_and]
          rfl
      rw [List.countP_cons, List.countP_cons, List.countP_cons,
        ih fun b member => settled b (List.mem_cons_of_mem a member), split]
      omega

/-- The accounts of a store that starts empty with all its counters at zero. -/
theorem accounts_serveAll (fresh : ∀ c, s.metrics.get c = 0) (h : s.contents.Coherent)
    (none : s.size = 0) (requests : List (Request K V))
    : Accounts (s.history requests) (s.serveAll requests) := by
  have counts (c : Counter) (own : ¬ c.OfCopies)
      : (s.serveAll requests).metrics.get c = UInt64.ofNat (s.total requests c) := by
    rw [s.counts_serveAll requests c own, fresh, UInt64.zero_add]
  have attempted (c : Counter) (own : ¬ c.OfCopies) (reading : ¬ c.OfWrites)
      : (s.serveAll requests).metrics.get c
        = UInt64.ofNat ((asked (s.history requests)).countP (·.counts c)) := by
    rw [counts c own, total_attempts s requests reading]
  have settled : ∀ a ∈ asked (s.history requests), a.Settled := by
    intro a member
    obtain ⟨x, _, there⟩ := List.mem_flatMap.mp member
    exact x.1.settled_attempts x.2 there
  have places := s.total_inserts requests
  have balance := size_serveAll h requests
  rw [none, Nat.zero_add, places] at balance
  refine {
    inserts := places ▸ counts .inserts id
    noopRemoves := total_noopRemoves h requests ▸ counts .noopRemoves id
    balance := ?_
    once := fun a member => (settled a member).once
    scans := attempted .scans id id
    scansRejected := attempted .scansRejected id id
    unknownCursors := attempted .unknownCursors id id
    cursorResumes := attempted .cursorResumes id id
    staleCursorResumes := attempted .staleCursorResumes id id
    resumes := ?_
  }
  · intro fits
    have inserted : (s.serveAll requests).metrics.inserts = _ := counts .inserts id
    have removed : (s.serveAll requests).metrics.removes = _ := counts .removes id
    rw [inserted, removed, places, UInt64.toNat_ofNat_of_lt' fits,
      UInt64.toNat_ofNat_of_lt' (by omega)]
    omega
  · have live : (s.serveAll requests).metrics.cursorResumes = _ := attempted .cursorResumes id id
    have stale : (s.serveAll requests).metrics.staleCursorResumes = _ :=
      attempted .staleCursorResumes id id
    rw [live, stale, ← UInt64.ofNat_add, countP_resumed settled]
    rfl

/-- A request fails if a scan that it asks for is refused or if it finds nothing to remove. -/
def fails (s : Store K V) (r : Request K V) : Bool :=
  s.misses r || (s.attempts r).any (·.fault.isSome)

/-- A request makes no difference to what a store holds and answers, now and later. -/
structure Unmoved (s : Store K V) (r : Request K V) : Prop where
  contents : (s.serve r).contents = s.contents
  later
    : ∀ requests, ((s.serve r).serveAll requests).contents = (s.serveAll requests).contents
  scans
    : ∀ requests d, (((s.serve r).serveAll requests).scan d).1 = ((s.serveAll requests).scan d).1
  groups
    : ∀ requests d,
        (((s.serve r).serveAll requests).scanGroups d).1 = ((s.serveAll requests).scanGroups d).1

omit [TransOrd K] in
/-- A request that fails makes no difference. -/
theorem unmoved_of_fails {r : Request K V} (failed : s.fails r = true) : s.Unmoved r := by
  have twin : s.Twin (s.serve r) := by
    by_cases reads : r.Reads
    · exact s.twin_serve reads
    · cases r with
      | write held w =>
          cases w with
          | remove key record =>
              have absent : s.contents.tree.holds key record = false := by
                simpa [fails, misses, attempts, remove] using failed
              have missed : s.contents.removal key record = [.miss key record] := by
                simp [Contents.removal, absent]
              rw [serve, perform, remove, missed]
              exact ⟨rfl, rfl, rfl⟩
          | _ => simp [fails, misses, attempts] at failed
      | _ => exact absurd trivial reads
  exact {
    contents := twin.contents
    later := fun requests => (twin.serveAll requests).contents
    scans := fun requests d => (twin.serveAll requests).scan_eq d
    groups := fun requests d => (twin.serveAll requests).scanGroups_eq d
  }

/-- Whatever a new store is asked for, its counters are the accounts of it: of what was put into it
and went out again, and of the scans that were opened, resumed or refused, among these every page
without room. A request that fails makes no difference to anything but the counters and the log.
-/
theorem accounts_of_requests {visibility : Visibility} {retiredCapacity pageSize : Nat}
    {logger : Log.Logger} (new : s = create visibility retiredCapacity pageSize logger)
    (requests : List (Request K V))
    : Accounts (s.history requests) (s.serveAll requests)
      ∧ (∀ d, ∀ a ∈ (s.serveAll requests).attempts (.page d 0), a.rejected = true)
      ∧ ∀ r, (s.serveAll requests).fails r = true → (s.serveAll requests).Unmoved r := by
  refine ⟨?_, ?_, fun r failed => unmoved_of_fails failed⟩
  · subst new
    refine accounts_serveAll (fun c => ?_) (Contents.coherent_empty retiredCapacity) rfl requests
    cases c <;> rfl
  · intro d a asked
    obtain rfl := List.mem_singleton.mp asked
    rfl

/-- A day in the life of a store: a record is replaced, moved and dropped with another one, cursors
are live, stale and unknown, and a page has no room.
-/
def busyDay : List (Request Int String) :=
  [.write .empty (.insert 5 ⟨⟨[1]⟩, "a"⟩), .write .empty (.insert 5 ⟨⟨[2]⟩, "b"⟩),
    .write .empty (.insert 5 ⟨⟨[1]⟩, "c"⟩), .write .empty (.update 4 7 ⟨⟨[2]⟩, "d"⟩),
    .write .empty (.insert 6 ⟨⟨[3]⟩, "e"⟩), .write .empty (.remove 6 ⟨[3]⟩),
    .write .empty (.remove 6 ⟨[3]⟩), .page (.all .ascending) 0,
    .scan ((Descriptor.all .ascending).resumed (some ⟨⟨[1]⟩⟩)),
    .page ((Descriptor.all .ascending).resumed (some ⟨⟨[3]⟩⟩)) 2,
    .defaultPage ((Descriptor.all .ascending).resumed (some ⟨⟨[4]⟩⟩)),
    .lookupAny [7, 5, 7], .write .empty .clear]

theorem busyDay_accounts
    : Accounts ((withVisibility .inPlace).history busyDay)
        ((withVisibility .inPlace).serveAll busyDay)
      ∧ ((withVisibility .inPlace).serveAll busyDay).metrics
        = { inserts := 5, removes := 2, noopRemoves := 1, scans := 4, scansRejected := 1,
            cursorResumes := 1, staleCursorResumes := 1, unknownCursors := 1 }
      ∧ ((withVisibility .inPlace).serveAll busyDay).Unmoved
          (.scan ((Descriptor.all .ascending).resumed (some ⟨⟨[1]⟩⟩))) := by
  obtain ⟨accounts, _, unmoved⟩ :=
    accounts_of_requests (s := withVisibility .inPlace) rfl busyDay
  exact ⟨accounts, by decide, unmoved _ (by decide)⟩

end Store

end PagedIndex
