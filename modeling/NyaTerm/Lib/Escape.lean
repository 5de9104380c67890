import NyaTerm.Lib.Transducer

-- Items that are replaced by a leader and a code.
namespace Escape

open Transducer

variable [DecidableEq α]

structure Table (α : Type) where
  leader : α
  code : α → Option α
  item : α → Option α
  -- Whether the leader has its meaning at all.
  active : Bool

namespace Table

variable (table : Table α)

def escapeItem (a : α) : List α :=
  match table.code a with
  | none => [a]
  | some c => [table.leader, c]

def escape (items : List α) : List α :=
  items.flatMap table.escapeItem

-- The state is whether the item is a code. An unknown code stops the machine.
def unescape (escaped : Bool) (a : α) : Transducer.Outcome Bool α :=
  if escaped then
    match table.item a with
    | none => ⟨[], true, true⟩
    | some b => ⟨[b], false, false⟩
  else if a = table.leader ∧ table.active then
    ⟨[], true, false⟩
  else
    ⟨[a], false, false⟩

structure Lawful : Prop where
  inverse {a c : α} : table.code a = some c → table.item c = some a
  active {a c : α} : table.code a = some c → table.active = true

-- The leader is escaped as well, if it has a meaning.
def EscapesLeader : Prop :=
  table.active = true → table.code table.leader ≠ none

variable {table}

omit [DecidableEq α] in
theorem escape_append :
    table.escape (first ++ second) = table.escape first ++ table.escape second :=
  List.flatMap_append

theorem run_escapeItem (h : table.Lawful) (hl : table.EscapesLeader) (a : α) :
    run table.unescape false (table.escapeItem a) = ⟨[a], false, false⟩ := by
  rw [escapeItem]
  split
  case h_1 hc =>
    have hplain : ¬ (a = table.leader ∧ table.active = true) := by
      rintro ⟨rfl, ha⟩
      exact hl ha hc
    simp [run, unescape, hplain]
  case h_2 c hc => simp [run, unescape, h.active hc, h.inverse hc]

theorem run_escape (h : table.Lawful) (hl : table.EscapesLeader) :
    run table.unescape false (table.escape items) = ⟨items, false, false⟩ := by
  induction items
  case nil => rfl
  case cons a items ih =>
    have ha := run_escapeItem h hl a
    have hrun := @Transducer.run_append _ _ _ table.unescape false (table.escapeItem a) (table.escape items)
      (by rw [ha])
    rw [ha] at hrun
    rw [ih] at hrun
    exact hrun

theorem run_leader (ha : table.active = true) :
    run table.unescape false [table.leader] = ⟨[], true, false⟩ := by
  simp [run, unescape, ha]

omit [DecidableEq α] in
theorem escape_leader (h : table.code table.leader = none) :
    table.escape [table.leader] = [table.leader] := by
  simp [escape, escapeItem, h]

theorem run_escape_leader (h : table.Lawful) (hl : table.EscapesLeader) (ha : table.active = true) :
    run table.unescape false (table.escape items ++ [table.leader]) =
      ⟨items, true, false⟩ := by
  have hr := @run_escape _ _ table items h hl
  rw [run_append (by rw [hr]), hr]
  rw [run_leader ha, List.append_nil]

theorem run_escaped_ne :
    run table.unescape true items ≠ ⟨[], false, false⟩ := by
  intro h
  cases items
  case nil => cases h
  case cons a items =>
    rw [run, unescape, if_pos rfl] at h
    cases hi : table.item a
    case none =>
      rw [hi] at h
      cases h
    case some b =>
      rw [hi] at h
      cases congrArg Transducer.Outcome.output h

theorem run_eq_nil (h : run table.unescape false items = ⟨[], false, false⟩) :
    items = [] := by
  cases items
  case nil => rfl
  case cons a items =>
    rw [run, unescape, if_neg Bool.false_ne_true] at h
    split at h
    case isTrue => exact absurd h run_escaped_ne
    case isFalse => cases congrArg Transducer.Outcome.output h

end Table

end Escape
