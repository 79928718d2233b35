import ZoneDiagram.Manager.Reduce

/-!
# Zones and paths

Every path of a diagram to the full federation whose constraints some valuation meets contributes a
zone. The zones of a diagram are disjoint. They are listed in the order of the edges, the first
edge of the root first.

Paths are counted without regard to their constraints.
-/

namespace ZoneDiagram.Manager

/-- The children of a diagram that its context admits, empty federations left out. -/
def branches (m : Manager) (f : Handle) (ctx : Dbm) : Except Error (CutList (Handle × Dbm)) := do
  return ctx.feasible (← m.pair f) (· != .zero) none (← m.edges f)

/-! ## Zones -/

/-- A decision that a search is inside of. -/
structure ZoneFrame where
  root : Handle
  /-- What the edges above leave. -/
  context : Dbm
  /-- The cut below the next edge. -/
  lower : Option Bound
  /-- The edges that are left, the next one first. -/
  edges : CutList Handle

/-- A search for the zones of a diagram, as it stands between two zones. -/
structure ZoneSearch where
  /-- A zone that is found before any edge is followed. -/
  pending : Option Dbm
  /-- The decisions that the search is inside of, the innermost first. -/
  stack : List ZoneFrame

/-- Go into a decision. -/
def enter (m : Manager) (f : Handle) (ctx : Dbm) (stack : List ZoneFrame) :
    Except Error (List ZoneFrame) :=
  if stack.length < m.depth then do return ⟨f, ctx, none, ← m.edges f⟩ :: stack
  else .error .tooDeep

/-- Follow the next edge of a decision: to a zone, into the decision below, or nowhere, if it leads
to the empty federation or the context does not admit its interval. -/
def follow (m : Manager) (frame : ZoneFrame) (e : Edge) (stack : List ZoneFrame) :
    Except Error (Option Dbm × List ZoneFrame) :=
  if e.item = .zero then .ok (none, stack)
  else do
    let pair ← m.pair frame.root
    if frame.context.admits pair frame.lower e.upper then
      let sub ← (frame.context.restricted pair frame.lower e.upper).inhabited?
      if e.item = .one then return (some sub, stack)
      else return (none, ← m.enter e.item sub stack)
    else return (none, stack)

/-- One turn of a search inside of a decision: the zone that it finds, if it does, and what the
search is inside of after it. -/
def turn (m : Manager) (frame : ZoneFrame) (stack : List ZoneFrame) :
    Except Error (Option Dbm × List ZoneFrame) :=
  match frame.edges with
  | [] => .ok (none, stack)
  | e :: edges => m.follow frame e ({ frame with lower := some e.upper, edges } :: stack)

/-- The number of turns that some edges take, with those inside of their children. -/
def turnsAlong (turns : Handle → Nat) (edges : CutList Handle) : Nat :=
  edges.foldr (fun e rest => 1 + turns e.item + rest) 0

theorem turnsAlong_cons (turns : Handle → Nat) (e : Edge) (edges : CutList Handle) :
    turnsAlong turns (e :: edges) = 1 + turns e.item + turnsAlong turns edges := rfl

/-- The number of turns inside of a diagram, if its edges are all followed down to a depth. -/
def turnsWithin (m : Manager) : Nat → Handle → Nat
  | 0, _ => 0
  | depth + 1, f =>
    match m.edges f with
    | .ok edges => 1 + turnsAlong (m.turnsWithin depth) edges
    | .error _ => 0

/-- More turns than a search can take. -/
def turnsLeft (m : Manager) : List ZoneFrame → Nat
  | [] => 0
  | frame :: stack =>
    1 + turnsAlong (m.turnsWithin (m.depth - (stack.length + 1))) frame.edges + m.turnsLeft stack

theorem turnsLeft_of_enter {m : Manager} {f : Handle} {ctx : Dbm} {stack stack' : List ZoneFrame}
    (h : m.enter f ctx stack = .ok stack') :
    m.turnsLeft stack' = m.turnsWithin (m.depth - stack.length) f + m.turnsLeft stack := by
  unfold enter at h
  split at h
  next lt =>
    obtain ⟨edges, read, h⟩ := Except.bind_eq_ok_iff.1 h
    cases h
    obtain ⟨below, eq⟩ : ∃ below, m.depth - stack.length = below + 1 :=
      ⟨m.depth - stack.length - 1, by omega⟩
    have eq' : m.depth - (stack.length + 1) = below := by omega
    rw [turnsLeft, eq, eq', turnsWithin, read]
  next => cases h

theorem turnsLeft_le_of_follow {m : Manager} {frame : ZoneFrame} {e : Edge}
    {stack stack' : List ZoneFrame} {found : Option Dbm}
    (h : m.follow frame e stack = .ok (found, stack')) :
    m.turnsLeft stack' ≤ m.turnsWithin (m.depth - stack.length) e.item + m.turnsLeft stack := by
  unfold follow at h
  split at h
  next =>
    cases h
    exact Nat.le_add_left _ _
  next =>
    obtain ⟨pair, -, h⟩ := Except.bind_eq_ok_iff.1 h
    split at h
    next =>
      obtain ⟨sub, -, h⟩ := Except.bind_eq_ok_iff.1 h
      split at h
      next =>
        cases h
        exact Nat.le_add_left _ _
      next =>
        obtain ⟨entered, enter, h⟩ := Except.bind_eq_ok_iff.1 h
        cases h
        exact Nat.le_of_eq (turnsLeft_of_enter enter)
    next =>
      cases h
      exact Nat.le_add_left _ _

/-- A turn leaves fewer turns. -/
theorem turnsLeft_lt_of_turn {m : Manager} {frame : ZoneFrame} {stack stack' : List ZoneFrame}
    {found : Option Dbm} (h : m.turn frame stack = .ok (found, stack')) :
    m.turnsLeft stack' < m.turnsLeft (frame :: stack) := by
  unfold turn at h
  split at h
  next =>
    cases h
    rw [turnsLeft]
    omega
  next e edges eq =>
    have le := turnsLeft_le_of_follow h
    rw [turnsLeft, List.length_cons] at le
    rw [turnsLeft, eq, turnsAlong_cons]
    dsimp only at le
    omega

/-- Search on until a zone is found. -/
def search (m : Manager) : List ZoneFrame → Except Error (Option Dbm × List ZoneFrame)
  | [] => .ok (none, [])
  | frame :: stack =>
    match _h : m.turn frame stack with
    | .error e => .error e
    | .ok (some zone, stack) => .ok (some zone, stack)
    | .ok (none, stack) => m.search stack
termination_by stack => m.turnsLeft stack
decreasing_by exact turnsLeft_lt_of_turn _h

/-- A search that finds a zone leaves fewer turns. -/
theorem turnsLeft_lt_of_search {m : Manager} {stack stack' : List ZoneFrame} {zone : Dbm}
    (h : m.search stack = .ok (some zone, stack')) : m.turnsLeft stack' < m.turnsLeft stack := by
  fun_induction search with
  | case1 => cases h
  | case2 => cases h
  | case3 frame stack zone' stack'' turn =>
    cases h
    exact turnsLeft_lt_of_turn turn
  | case4 frame stack stack'' turn ih => exact Nat.lt_trans (ih h) (turnsLeft_lt_of_turn turn)

namespace ZoneSearch

/-- The search for the zones of a diagram, before it begins. -/
def start (m : Manager) (f : Handle) : Except Error ZoneSearch :=
  if f = .one then .ok ⟨some m.openContext, []⟩
  else if f = .zero then .ok ⟨none, []⟩
  else do return ⟨none, ← m.enter f m.openContext []⟩

/-- The next zone of a search, if there is one more. -/
def next (m : Manager) (s : ZoneSearch) : Except Error (Option Dbm × ZoneSearch) :=
  match s.pending with
  | some zone => .ok (some zone, { s with pending := none })
  | none => do
    let (found, stack) ← m.search s.stack
    return (found, ⟨none, stack⟩)

/-- More turns than the search can take. -/
def turnsLeft (m : Manager) (s : ZoneSearch) : Nat :=
  m.turnsLeft s.stack + if s.pending.isSome then 1 else 0

/-- The next zone leaves fewer turns. -/
theorem turnsLeft_lt_of_next {m : Manager} {s s' : ZoneSearch} {zone : Dbm}
    (h : s.next m = .ok (some zone, s')) : s'.turnsLeft m < s.turnsLeft m := by
  unfold next at h
  split at h
  next eq =>
    cases h
    simp [turnsLeft, eq]
  next eq =>
    obtain ⟨⟨found, stack⟩, search, h⟩ := Except.bind_eq_ok_iff.1 h
    cases h
    simpa [turnsLeft, eq] using turnsLeft_lt_of_search search

/-- All zones that are left. -/
def all (m : Manager) (s : ZoneSearch) : Except Error (List Dbm) :=
  match _h : s.next m with
  | .error e => .error e
  | .ok (some zone, s) => do return zone :: (← s.all m)
  | .ok (none, _) => .ok []
termination_by s.turnsLeft m
decreasing_by exact turnsLeft_lt_of_next _h

/-- The next zones of a search, up to a limit. The search goes no further than to the last. -/
def take (m : Manager) : Nat → ZoneSearch → Except Error (List Dbm)
  | 0, _ => .ok []
  | limit + 1, s => do
    match ← s.next m with
    | (some zone, s) => return zone :: (← take m limit s)
    | (none, _) => return []

end ZoneSearch

/-- The zones of a diagram, as closed matrices over all clocks. -/
def zones (m : Manager) (f : Handle) : Except Error (List Dbm) := do
  (← ZoneSearch.start m f).all m

/-- The first zones of a diagram, up to a limit. -/
def firstZones (m : Manager) (f : Handle) (limit : Nat) : Except Error (List Dbm) := do
  (← ZoneSearch.start m f).take m limit

/-! ## Paths -/

/-- The numbers of paths to the full and to the empty federation. -/
structure PathCounts where
  toOne : Nat
  toZero : Nat

namespace PathCounts

/-- Complement exchanges the ends of paths. -/
def applySign (f : Handle) (c : PathCounts) : PathCounts :=
  if f.isNegated then ⟨c.toZero, c.toOne⟩ else c

/-- The paths of two branches together. -/
def add (c d : PathCounts) : PathCounts := ⟨c.toOne + d.toOne, c.toZero + d.toZero⟩

end PathCounts

/-- Count the paths of a diagram; the counts of its nodes are kept. -/
def countPaths (m : Manager) :
    Nat → Handle → StateT (Std.TreeMap Nat PathCounts) (Except Error) PathCounts
  | 0, _ => throw .tooDeep
  | depth + 1, f => do
    if f.isTerminal then return PathCounts.applySign f ⟨1, 0⟩
    match (← get)[f.slot]? with
    | some counts => return counts.applySign f
    | none =>
      let node ← (m.node f : Except Error Node)
      let counts ← node.edges.foldlM (fun counts e => do
        return counts.add (← m.countPaths depth e.item)) ⟨0, 0⟩
      modify (·.insert f.slot counts)
      return counts.applySign f

/-- The number of paths of a diagram to the full federation, taken by a valuation or not. -/
def pathCount (m : Manager) (f : Handle) : Except Error Nat := do
  let (counts, _) ← (m.countPaths m.depth f).run ∅
  return counts.toOne

end ZoneDiagram.Manager
