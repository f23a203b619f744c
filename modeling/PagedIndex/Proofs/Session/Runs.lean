import PagedIndex.Proofs.Store.Reachable
import PagedIndex.Session

/-! Runs of sessions: writes and readers in any order. An action changes the contents only if it
writes and only the readers that it names, so the reader under a name is where its own actions have
brought it, whatever is done under other names in between.
-/

namespace PagedIndex

/-- What can be done to a session. -/
inductive Action (K : Type u) (V : Type v) where
  | write (w : Write K V)
  | openScan (name : String) (d : Descriptor K)
  | pull (name : String)
  | pullAside (name aside : String)
  | flatten (name : String)
  | take (name : String) (n : Nat)
  | close (name : String)
deriving DecidableEq, Repr

namespace Action

/-- The names whose readers an action may change. -/
def names : Action K V → List String
  | write _ => []
  | openScan name _ | pull name | flatten name | take name _ | close name => [name]
  | pullAside name aside => [name, aside]

/-- An action may read on from the reader under a name but does not put another in its place. -/
def Spares (name : String) : Action K V → Prop
  | openScan other _ | flatten other | close other | pullAside _ other => other ≠ name
  | write _ | pull _ | take _ _ => True

instance (name : String) : DecidablePred (Spares (K := K) (V := V) name)
  | openScan _ _ | flatten _ | close _ | pullAside _ _ => inferInstanceAs (Decidable (_ ≠ _))
  | write _ | pull _ | take _ _ => inferInstanceAs (Decidable True)

/-- How many entries an action asks of the reader under a name. -/
def asks (name : String) : Action K V → Nat
  | take other n => if other = name then n else 0
  | _ => 0

end Action

namespace Session

variable [Ord K]

def perform (s : Session K V) : Write K V → Session K V
  | .insert key entry => s.insert key entry
  | .remove key record => (s.remove key record).2
  | .update oldKey newKey entry => (s.update oldKey newKey entry).2
  | .clear => s.clear

def act (s : Session K V) : Action K V → Session K V
  | .write w => s.perform w
  | .openScan name d => (s.openScan name d).2
  | .pull name => (s.pull name).2
  | .pullAside name aside => (s.pullAside name aside).2
  | .flatten name => s.flatten name
  | .take name n => (s.take name n).2
  | .close name => (s.close name).2

/-- The session after a run of actions. -/
def run (s : Session K V) (actions : List (Action K V)) : Session K V := actions.foldl act s

/-- The contents before each action of a run and after the last. -/
def moments (s : Session K V) : List (Action K V) → List (Contents K V)
  | [] => [s.store.contents]
  | a :: rest => s.store.contents :: (s.act a).moments rest

/-- The answer to an action that pulls a group of the scan under a name. -/
def pulled? (s : Session K V) (name : String) : Action K V → Option (Option (Group K V))
  | .pull other => if other = name then some (s.pull other).1 else none
  | .pullAside other aside => if other = name then some (s.pullAside other aside).1 else none
  | _ => none

/-- The answers to all pulls of a name in a run, each with the contents at that moment. -/
def pulls (s : Session K V) (name : String)
    : List (Action K V) → List (Contents K V × Option (Group K V))
  | [] => []
  | a :: rest =>
    ((s.pulled? name a).map fun answer => (s.store.contents, answer)).toList
      ++ (s.act a).pulls name rest

/-- What an action takes from the reader under a name. -/
def taken (s : Session K V) (name : String) : Action K V → List (Entry V)
  | .take other n => if other = name then (s.take other n).1 else []
  | _ => []

/-- All that a run takes from the reader under a name. -/
def takes (s : Session K V) (name : String) : List (Action K V) → List (Entry V)
  | [] => []
  | a :: rest => s.taken name a ++ (s.act a).takes name rest

/-! ## The store of a session -/

theorem store_perform (s : Session K V) (w : Write K V)
    : (s.perform w).store = s.store.perform s.holdings w := by
  cases w <;> rfl

theorem readers_perform (s : Session K V) (w : Write K V) : (s.perform w).readers = s.readers := by
  cases w <;> rfl

theorem store_openScan (s : Session K V) (name : String) (d : Descriptor K)
    : (s.openScan name d).2.store = (s.store.scan d).2 := by
  unfold openScan
  split
  next outcome => rw [outcome]
  next outcome => rw [outcome]; rfl

theorem store_pull (s : Session K V) (name : String) : (s.pull name).2.store = s.store := by
  unfold pull
  split <;> rfl

theorem store_pullAside (s : Session K V) (name aside : String)
    : (s.pullAside name aside).2.store = s.store := by
  have pulled := s.store_pull name
  unfold pullAside
  split <;> next outcome => rwa [outcome] at pulled

omit [Ord K] in
theorem store_flatten (s : Session K V) (name : String) : (s.flatten name).store = s.store := by
  unfold flatten
  split <;> rfl

theorem store_take (s : Session K V) (name : String) (n : Nat)
    : (s.take name n).2.store = s.store := by
  unfold take
  split <;> rfl

/-- An action asks of the store a write, a scan or nothing. -/
theorem reachable_act {s : Session K V} (h : s.store.Reachable) (a : Action K V)
    : (s.act a).store.Reachable := by
  cases a with
  | write w => exact s.store_perform w ▸ h.written s.holdings w
  | openScan name d => exact s.store_openScan name d ▸ h.scanned d
  | pull name => exact s.store_pull name ▸ h
  | pullAside name aside => exact s.store_pullAside name aside ▸ h
  | flatten name => exact s.store_flatten name ▸ h
  | take name n => exact s.store_take name n ▸ h
  | close name => exact h

theorem reachable_run {s : Session K V} (h : s.store.Reachable) (actions : List (Action K V))
    : (s.run actions).store.Reachable := by
  induction actions generalizing s with
  | nil => exact h
  | cons a rest ih => exact ih (reachable_act h a)

theorem first_mem_moments (s : Session K V) (actions : List (Action K V))
    : s.store.contents ∈ s.moments actions := by
  cases actions <;> simp [moments]

/-! ## The readers of a session -/

variable {s : Session K V} {name : String} {a : Action K V}

omit [Ord K] in
theorem get?_setReader (s : Session K V) (name other : String) (reader : Reader K V)
    : (s.setReader name reader).readers.get? other
      = if other = name then some reader else s.readers.get? other :=
  s.readers.get?_set name other reader

theorem get?_openScan {scan : Scan K V} {d : Descriptor K} (opened : (s.store.scan d).1 = .ok scan)
    : (s.openScan name d).2.readers.get? name = some (.scan scan) := by
  unfold openScan
  split
  next outcome => simp [outcome] at opened
  next outcome =>
    rw [outcome] at opened
    obtain rfl := Except.ok.inj opened
    simp [get?_setReader]

theorem get?_pull {other : String} (apart : other ≠ name)
    : (s.pull name).2.readers.get? other = s.readers.get? other := by
  unfold pull
  split
  · simp only [get?_setReader, apart, if_false]
  · rfl

theorem pull_scan {scan : Scan K V} (here : s.readers.get? name = some (.scan scan))
    : s.pull name
      = ((scan.next s.store.contents.tree).1,
          s.setReader name (.scan (scan.next s.store.contents.tree).2)) := by
  simp only [pull, here]

/-- Setting a group aside pulls it. -/
theorem pull_of_pullAside {aside : String} {group : Group K V} {t : Session K V}
    (pulled : s.pullAside name aside = (some group, t))
    : s.pull name = (some group, (s.pull name).2)
      ∧ t = (s.pull name).2.setReader aside (.group group) := by
  unfold pullAside at pulled
  split at pulled
  next => simp at pulled
  next other after outcome =>
    obtain ⟨same, rfl⟩ := Prod.mk.inj pulled
    obtain rfl := Option.some.inj same
    rw [outcome]
    exact ⟨rfl, rfl⟩

/-- An action changes no readers but those it names. -/
theorem get?_act (unnamed : name ∉ a.names)
    : (s.act a).readers.get? name = s.readers.get? name := by
  cases a with
  | write w => rw [act, readers_perform]
  | openScan other d =>
      have apart : name ≠ other := by simpa [Action.names] using unnamed
      simp only [act, openScan]
      split
      · rfl
      · simp only [get?_setReader, apart, if_false]
  | pull other =>
      have apart : name ≠ other := by simpa [Action.names] using unnamed
      exact get?_pull apart
  | pullAside other aside =>
      obtain ⟨apart, beside⟩ : name ≠ other ∧ name ≠ aside := by
        simpa [Action.names] using unnamed
      have pulled := get?_pull (s := s) apart
      simp only [act, pullAside]
      split
      next outcome => rwa [outcome] at pulled
      next outcome =>
        rw [outcome] at pulled
        simpa only [get?_setReader, beside, if_false] using pulled
  | flatten other =>
      have apart : name ≠ other := by simpa [Action.names] using unnamed
      simp only [act, flatten]
      split
      · simp only [get?_setReader, apart, if_false]
      · rfl
  | take other n =>
      have apart : name ≠ other := by simpa [Action.names] using unnamed
      simp only [act, take]
      split
      · simp only [get?_setReader, apart, if_false]
      · simp only [get?_setReader, apart, if_false]
      · rfl
  | close other =>
      have apart : name ≠ other := by simpa [Action.names] using unnamed
      simp only [act, close, Table.get?_erase, apart, if_false]

/-- A scan that is spared goes on by one group when it is pulled, and else stays as it is. -/
theorem act_scan {scan : Scan K V} (here : s.readers.get? name = some (.scan scan))
    (spared : a.Spares name)
    : (s.pulled? name a = none ∧ (s.act a).readers.get? name = some (.scan scan))
      ∨ (s.pulled? name a = some (scan.next s.store.contents.tree).1
        ∧ (s.act a).readers.get? name = some (.scan (scan.next s.store.contents.tree).2)) := by
  have pulled := pull_scan here
  by_cases named : name ∈ a.names
  · cases a with
    | write w => simp [Action.names] at named
    | openScan other d | flatten other | close other =>
        exact absurd (List.mem_singleton.mp named).symm spared
    | pull other =>
        obtain rfl := List.mem_singleton.mp named
        right
        simp [pulled?, act, pulled, get?_setReader]
    | pullAside other aside =>
        have beside : aside ≠ name := spared
        obtain rfl : name = other := by simpa [Action.names, Ne.symm beside] using named
        right
        simp only [pulled?, act, pullAside, pulled, if_true]
        split
        next outcome =>
          obtain ⟨nothing, rfl⟩ := Prod.mk.inj outcome
          simp [nothing, get?_setReader]
        next outcome =>
          obtain ⟨something, rfl⟩ := Prod.mk.inj outcome
          simp [something, get?_setReader, Ne.symm beside]
    | take other n =>
        obtain rfl := List.mem_singleton.mp named
        left
        simp [pulled?, act, take, here]
  · left
    refine ⟨?_, (get?_act named).trans here⟩
    cases a with
    | pull other | pullAside other _ =>
        have apart : other ≠ name := fun same => named (by simp [Action.names, same])
        simp [pulled?, apart]
    | _ => rfl

/-- The course of a scan through a run that spares it: it rests while others act, and is otherwise
pulled with the contents of that moment.
-/
inductive Course (name : String) : Session K V → Scan K V → List (Action K V) → Prop
  | ended {s : Session K V} {scan : Scan K V} (here : s.readers.get? name = some (.scan scan))
    : Course name s scan []
  | rested {s : Session K V} {scan : Scan K V} {a : Action K V} {rest : List (Action K V)}
      (idle : s.pulls name (a :: rest) = (s.act a).pulls name rest)
      (tail : Course name (s.act a) scan rest)
    : Course name s scan (a :: rest)
  | pulled {s : Session K V} {scan : Scan K V} {a : Action K V} {rest : List (Action K V)}
      (answer
        : s.pulls name (a :: rest)
          = (s.store.contents, (scan.next s.store.contents.tree).1) :: (s.act a).pulls name rest)
      (tail : Course name (s.act a) (scan.next s.store.contents.tree).2 rest)
    : Course name s scan (a :: rest)

theorem course {scan : Scan K V} {actions : List (Action K V)}
    (here : s.readers.get? name = some (.scan scan)) (spared : ∀ a ∈ actions, a.Spares name)
    : Course name s scan actions := by
  induction actions generalizing s scan with
  | nil => exact .ended here
  | cons a rest ih =>
      have others : ∀ b ∈ rest, b.Spares name := fun b member =>
        spared b (List.mem_cons_of_mem a member)
      rcases act_scan here (spared a (by simp)) with ⟨idle, stays⟩ | ⟨answer, goes⟩
      · exact .rested (by simp [pulls, idle]) (ih stays others)
      · exact .pulled (by simp [pulls, answer]) (ih goes others)

/-- A reader that is no scan stays as it is when it is spared and nothing is taken from it. -/
theorem act_settled {reader : Reader K V} (here : s.readers.get? name = some reader)
    (settled : ∀ scan, reader ≠ .scan scan) (spared : a.Spares name)
    : (∃ n, a = .take name n)
      ∨ a.asks name = 0 ∧ s.taken name a = [] ∧ (s.act a).readers.get? name = some reader := by
  have idle : s.pull name = (none, s) := by
    unfold pull
    rw [here]
    split
    next scan found => exact absurd (Option.some.inj found) (settled scan)
    next => rfl
  by_cases named : name ∈ a.names
  · cases a with
    | write w => simp [Action.names] at named
    | openScan other d | flatten other | close other =>
        exact absurd (List.mem_singleton.mp named).symm spared
    | pull other =>
        obtain rfl := List.mem_singleton.mp named
        exact Or.inr ⟨rfl, rfl, by rw [act, idle]; exact here⟩
    | pullAside other aside =>
        have beside : aside ≠ name := spared
        obtain rfl : name = other := by simpa [Action.names, Ne.symm beside] using named
        exact Or.inr ⟨rfl, rfl, by rw [act, pullAside, idle]; exact here⟩
    | take other n =>
        obtain rfl := List.mem_singleton.mp named
        exact Or.inl ⟨n, rfl⟩
  · refine Or.inr ⟨?_, ?_, (get?_act named).trans here⟩
    all_goals
      cases a with
      | take other n =>
          have apart : other ≠ name := fun same => named (by simp [Action.names, same])
          simp [Action.asks, taken, apart]
      | _ => rfl

/-- Whatever is done under other names, what is taken from the reader under a name are some entries
one after the other.
-/
def Serves (s : Session K V) (name : String) (entries : List (Entry V)) : Prop :=
  ∀ actions : List (Action K V), (∀ a ∈ actions, a.Spares name)
    → s.takes name actions = entries.take (actions.map (·.asks name)).sum

/-- A reader that is no scan serves what it has left if taking some takes the first of it and leaves
the others, by induction over the run.
-/
theorem serves_of_take (Left : Reader K V → List (Entry V) → Prop)
    (settled : ∀ reader entries, Left reader entries → ∀ scan, reader ≠ .scan scan)
    (step
      : ∀ (s : Session K V) reader entries n, s.readers.get? name = some reader
          → Left reader entries
          → (s.take name n).1 = entries.take n
            ∧ ∃ later, (s.take name n).2.readers.get? name = some later
              ∧ Left later (entries.drop n))
    {reader : Reader K V} (here : s.readers.get? name = some reader) {entries : List (Entry V)}
    (left : Left reader entries)
    : s.Serves name entries := by
  intro actions
  induction actions generalizing s reader entries with
  | nil => exact fun _ => rfl
  | cons a rest ih =>
      intro spared
      have others : ∀ b ∈ rest, b.Spares name := fun b member =>
        spared b (List.mem_cons_of_mem a member)
      rw [takes, List.map_cons, List.sum_cons, List.take_add]
      rcases act_settled here (settled reader entries left) (spared a (by simp)) with
        ⟨n, rfl⟩ | ⟨asked, taken, stays⟩
      · obtain ⟨front, later, goes, still⟩ := step s reader entries n here left
        have rest := ih (s := s.act (.take name n)) goes still others
        simp [rest, taken, front, Action.asks]
      · rw [taken, asked, ih stays left others, List.take_zero, List.drop_zero]

theorem serves_group {group : Group K V} (here : s.readers.get? name = some (.group group))
    : s.Serves name group.pending := by
  refine serves_of_take (fun reader entries =>
    ∃ group, reader = .group group ∧ group.pending = entries) ?_ ?_ here ⟨group, rfl, rfl⟩
  · rintro _ _ ⟨group, rfl, _⟩
    simp
  · rintro s _ _ n here ⟨group, rfl, rfl⟩
    simp [take, here, Group.take, get?_setReader]

/-- A group that is set aside keeps its entries. -/
theorem serves_pullAside {aside : String} {group : Group K V} {t : Session K V}
    (pulled : s.pullAside name aside = (some group, t))
    : t.Serves aside group.pending := by
  refine serves_group ?_
  rw [(pull_of_pullAside pulled).2, get?_setReader, if_pos rfl]

end Session

end PagedIndex
