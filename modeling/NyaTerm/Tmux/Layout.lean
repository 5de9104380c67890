import NyaTerm.Tmux.Control

-- The layouts of tmux and the text that tmux prints for one.
namespace NyaTerm.Tmux

structure Geometry where
  width : UInt32
  height : UInt32
  x : UInt32
  y : UInt32

inductive Layout
  | leaf (geometry : Geometry) (pane : UInt32)
  | split (columns : Bool) (geometry : Geometry) (children : List Layout)

def decimal (n : UInt32) : Text :=
  Nat.toDigits 10 n.toNat

namespace Geometry

-- What stands before the last offset.
def head (g : Geometry) : Text :=
  decimal g.width ++ 'x' :: (decimal g.height ++ ',' :: (decimal g.x ++ [',']))

def text (g : Geometry) : Text :=
  g.head ++ decimal g.y

end Geometry

namespace Layout

def opener (columns : Bool) : Char :=
  if columns then '\x7b' else '['

def closer (columns : Bool) : Char :=
  if columns then '\x7d' else ']'

mutual

def text : Layout → Text
  | leaf g pane => g.text ++ ',' :: decimal pane
  | split columns g children => g.text ++ opener columns :: (texts children ++ [closer columns])

def texts : List Layout → Text
  | [] => []
  | [t] => t.text
  | t :: u :: ts => t.text ++ ',' :: texts (u :: ts)

end

mutual

def cell : Layout → LayoutCell
  | leaf g pane =>
    ⟨g.width.toNat, g.height.toNat, g.x.toNat, g.y.toNat, some pane.toNat, false, []⟩
  | split columns g children =>
    ⟨g.width.toNat, g.height.toNat, g.x.toNat, g.y.toNat, none, columns, cells children⟩

def cells : List Layout → List LayoutCell
  | [] => []
  | t :: ts => t.cell :: cells ts

end

mutual

-- Every split has a child.
def filled : Layout → Bool
  | leaf .. => true
  | split _ _ children => !children.isEmpty && allFilled children

def allFilled : List Layout → Bool
  | [] => true
  | t :: ts => t.filled && allFilled ts

end

mutual

-- A text that stops before the last offset of a cell.
def stopsInHead : Layout → Text → Prop
  | leaf g _, p => p <+: g.head
  | split columns g children, p =>
    p <+: g.head ∨ ∃ q, p = g.text ++ opener columns :: q ∧ stopsInHeads children q

def stopsInHeads : List Layout → Text → Prop
  | [], _ => False
  | t :: ts, p =>
    p <+: t.text ∧ stopsInHead t p ∨ ∃ q, p = t.text ++ ',' :: q ∧ stopsInHeads ts q

end

-- A layout as it stands in `%layout-change`, after the hexadecimal digits of its checksum.
def print (checksum : Text) (t : Layout) : Text :=
  checksum ++ ',' :: t.text

end Layout

end NyaTerm.Tmux
