import Std.Data.TreeSet
import ZoneDiagram.Manager.Zones

/-!
# Extraction

One zone is taken out of a federation: the one of the first path that some valuation takes. What is
left of the federation is reduced.
-/

namespace ZoneDiagram

/-- One zone of a federation, and the rest. -/
structure Extraction where
  /-- The zone on the requested clocks. -/
  dbm : Dbm
  /-- The diagram of the zone on all clocks. -/
  zone : Handle
  /-- The federation without the zone. -/
  remainder : Handle

namespace Manager

/-- The visits from which no path leads to a zone. -/
abbrev DeadEnds := Std.TreeSet Visit

/-- The zone of the first branch that leads to one. -/
def firstBranch (search : Handle → Dbm → StateT DeadEnds (Except Error) (Option Dbm)) :
    CutList (Handle × Dbm) → StateT DeadEnds (Except Error) (Option Dbm)
  | [] => return none
  | p :: ps => do
    let sub ← (p.item.2.inhabited? : Except Error Dbm)
    match ← search p.item.1 sub with
    | some zone => return some zone
    | none => firstBranch search ps

/-- The zone of the first path of a diagram that its context admits. -/
def findZone (m : Manager) :
    Nat → Handle → Dbm → StateT DeadEnds (Except Error) (Option Dbm)
  | 0, _, _ => throw .tooDeep
  | depth + 1, f, ctx => do
    if f = .zero then return none
    if f = .one then return some ctx
    if (← get).contains ⟨f, ctx⟩ then return none
    let branches ← (m.branches f ctx : Except Error (CutList (Handle × Dbm)))
    match ← firstBranch (m.findZone depth) branches with
    | some zone => return some zone
    | none =>
      modify (·.insert ⟨f, ctx⟩)
      return none

/-- The zone that is taken out of a federation, over all clocks: inhabited and closed. -/
def chooseZone (m : Manager) (f : Handle) : Except Error Dbm := do
  let (found, _) ← (m.findZone m.depth f m.openContext).run ∅
  match found with
  | none => throw .emptyFederation
  | some zone =>
    if !zone.isValid then throw (.extractedEmpty f)
    else if !zone.isClosed then throw (.extractedOpen f)
    else return zone

/-- A number of clocks that a zone can be projected to: at least the reference clock. -/
def checkExtractDim (m : Manager) (dim : Nat) : Except Error { n : Nat // 0 < n } :=
  if h : 0 < dim ∧ dim ≤ m.dim then .ok ⟨dim, h.1⟩
  else .error (.dimensionMismatch m.clocks dim)

/-- Take one zone out of a federation, and project it onto its first clocks. -/
def extract (f : Handle) (dim : Nat) : ManagerM Extraction := do
  let ⟨dim, dim_pos⟩ ← query (·.checkExtractDim dim)
  let full ← query (·.chooseZone f)
  let zone ← ofDbm full
  let remainder ← applyReduce .and f (-zone)
  return ⟨full.projected dim dim_pos, zone, remainder⟩

end Manager

end ZoneDiagram
