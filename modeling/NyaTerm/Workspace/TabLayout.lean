import Mathlib.Algebra.Order.Field.Rat

-- Saved layouts of the tabs of a window.
namespace NyaTerm.Workspace

inductive WorkspaceSplitDirection
  | horizontal
  | vertical

-- The groups of tabs of a window. The identities of the nodes are random, and neither saving nor
-- restoring reads them.
inductive TerminalWindowNode
  | leaf (tabIds : List String) (activeTabId : Option String)
  | split (direction : WorkspaceSplitDirection) (ratioPercent : Nat)
      (first second : TerminalWindowNode)

-- A layout as it is stored: tabs are positions in a list. A ratio that is not finite is `none`.
inductive RestorableTerminalWindowNode
  | leaf (tabIndexes : List Nat) (activeTabIndex : Option Nat)
  | split (direction : String) (ratio : Option Rat)
      (first second : RestorableTerminalWindowNode)

-- The items in order without the repeated ones.
def unique {α : Type} [DecidableEq α] (items : List α) : List α :=
  items.foldl (fun seen item => if item ∈ seen then seen else seen ++ [item]) []

-- The position of a tab; of several ones the last.
def indexById (orderedTabIds : List String) (id : String) : Option Nat :=
  (orderedTabIds.zipIdx.reverse.find? (·.1 = id)).map (·.2)

def WorkspaceSplitDirection.name : WorkspaceSplitDirection → String
  | horizontal => "horizontal"
  | vertical => "vertical"

def WorkspaceSplitDirection.parse (direction : String) : Option WorkspaceSplitDirection :=
  let lower := direction.toList.map Char.toLower
  if lower = "horizontal".toList ∨ lower = "row".toList then some .horizontal
  else if lower = "vertical".toList ∨ lower = "column".toList then some .vertical
  else none

def storedRatio (ratioPercent : Nat) : Rat :=
  max 0.01 (min 0.99 ((max 1 (min 99 ratioPercent) : Nat) / 100))

def restoredPercent (ratio : Rat) : Nat :=
  max 1 (min 99 (ratio * 100 + 1 / 2).floor.toNat)

namespace TerminalWindowNode

def collectTabIds : TerminalWindowNode → List String
  | leaf tabIds _ => tabIds
  | split _ _ first second => first.collectTabIds ++ second.collectTabIds

def newLeaf (tabIds : List String) (activeTabId : Option String) : TerminalWindowNode :=
  let tabIds := unique tabIds
  .leaf tabIds ((activeTabId.filter (· ∈ tabIds)).or tabIds.head?)

def serializeLayoutWith (orderedTabIds : List String) :
    TerminalWindowNode → Option RestorableTerminalWindowNode
  | leaf tabIds activeTabId =>
    let tabIndexes := unique (tabIds.filterMap (indexById orderedTabIds))
    if tabIndexes = [] then none
    else some (.leaf tabIndexes
      ((activeTabId.bind (indexById orderedTabIds)).or tabIndexes.head?))
  | split direction ratioPercent first second =>
    .merge (.split direction.name (some (storedRatio ratioPercent)))
      (first.serializeLayoutWith orderedTabIds) (second.serializeLayoutWith orderedTabIds)

def serializeLayout (node : TerminalWindowNode) (orderedTabIds : List String) :
    Option RestorableTerminalWindowNode :=
  if orderedTabIds = [] then none else node.serializeLayoutWith orderedTabIds

-- The tabs at the positions that are not used yet.
def takeTabs (orderedTabIds : List String) : List Nat → List String → List String
  | [], _ => []
  | index :: indexes, used =>
    match orderedTabIds[index]? with
    | none => takeTabs orderedTabIds indexes used
    | some tabId =>
      if tabId ∈ used then takeTabs orderedTabIds indexes used
      else tabId :: takeTabs orderedTabIds indexes (used ++ [tabId])

def restoreLayoutInner (orderedTabIds : List String) :
    RestorableTerminalWindowNode → List String → Option TerminalWindowNode × List String
  | .leaf tabIndexes activeTabIndex, used =>
    let tabIds := takeTabs orderedTabIds tabIndexes used
    if tabIds = [] then (none, used)
    else
      let activeTabId := ((activeTabIndex.bind (orderedTabIds[·]?)).filter (· ∈ tabIds)).or tabIds.head?
      (some (newLeaf tabIds activeTabId), used ++ tabIds)
  | .split direction ratio first second, used =>
    let header := (WorkspaceSplitDirection.parse direction).bind fun direction => ratio.map (direction, ·)
    header.elim (none, used) fun header =>
      let first := restoreLayoutInner orderedTabIds first used
      let second := restoreLayoutInner orderedTabIds second first.2
      (.merge (.split header.1 (restoredPercent header.2)) first.1 second.1, second.2)

def restoreLayout (layout : RestorableTerminalWindowNode) (orderedTabIds : List String) :
    Option TerminalWindowNode :=
  if orderedTabIds = [] then none
  else
    let restored := restoreLayoutInner orderedTabIds layout []
    if orderedTabIds.all (· ∈ restored.2) then restored.1 else none

end TerminalWindowNode

end NyaTerm.Workspace
