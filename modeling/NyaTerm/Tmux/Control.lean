import NyaTerm.Lib.Lines
import NyaTerm.Lib.Text

-- The line protocol of the control mode of tmux.
namespace NyaTerm.Tmux

abbrev Bytes := List UInt8
abbrev Text := List Char

def newline : UInt8 := 10
def carriageReturn : UInt8 := 13
def backslash : UInt8 := 92

-- The identity that the first and the last line of a response share.
structure BlockId where
  time : Nat
  number : Nat
  flags : Nat
  deriving DecidableEq

structure LayoutCell where
  width : Nat
  height : Nat
  x : Nat
  y : Nat
  pane : Option Nat
  columns : Bool
  children : List LayoutCell

inductive ControlMessage
  | begin (id : BlockId)
  | «end» (id : BlockId)
  | error (id : BlockId)
  | output (pane : Text) (data : Bytes)
  | extendedOutput (pane : Text) (age : Nat) (data : Bytes)
  | layoutChange (window : Text) (layout visibleLayout : LayoutCell) (flags : Text)
  | windowAdd (window : Text)
  | windowClose (window : Text)
  | windowRenamed (window name : Text)
  | windowPaneChanged (window pane : Text)
  | paneExited (pane : Text)
  | paneModeChanged (pane : Text)
  | sessionChanged (session : Text)
  | sessionWindowChanged (window : Text)
  | sessionRenamed (session : Text)
  | sessionsChanged
  | clientSessionChanged
  | clientDetached (client : Text)
  | pause (pane : Text)
  | «continue» (pane : Text)
  | exit (reason : Option Text)
  | configError (text : Text)
  | message (text : Text)
  | ignored

structure ControlParser where
  bytes : Bytes
  consumed : Nat

namespace ControlParser

def new : ControlParser :=
  ⟨[], 0⟩

def push (parser : ControlParser) (data : Bytes) : ControlParser :=
  if 0 < parser.consumed then ⟨parser.bytes.drop parser.consumed ++ data, 0⟩
  else { parser with bytes := parser.bytes ++ data }

def stripCarriageReturn (line : Bytes) : Bytes :=
  if line.getLast? = some carriageReturn then line.dropLast else line

def nextLine (parser : ControlParser) : Option Bytes × ControlParser :=
  match Lines.cut newline (parser.bytes.drop parser.consumed) with
  | none => (none, parser)
  | some (line, _) =>
    (some (stripCarriageReturn line), { parser with consumed := parser.consumed + line.length + 1 })

def takePending (parser : ControlParser) : Bytes × ControlParser :=
  (parser.bytes.drop parser.consumed, new)

end ControlParser

def isOctal (bound : UInt8) (byte : UInt8) : Bool :=
  48 ≤ byte ∧ byte ≤ bound

def octalValue (first second third : UInt8) : UInt8 :=
  UInt8.ofNat ((first.toNat - 48) * 64 + (second.toNat - 48) * 8 + (third.toNat - 48))

-- A backslash that three octal digits do not follow stays as it is.
def unescapeOctal : Bytes → Bytes
  | byte :: first :: second :: third :: rest =>
    if byte = backslash ∧ isOctal 51 first ∧ isOctal 55 second ∧ isOctal 55 third then
      octalValue first second third :: unescapeOctal rest
    else
      byte :: unescapeOctal (first :: second :: third :: rest)
  | byte :: rest => byte :: unescapeOctal rest
  | [] => []

-- `str::parse`, for numbers below a bound.
def parseNumber (bound : Nat) (text : Text) : Option Nat :=
  let digits := if text.head? = some '+' then text.tail else text
  let value := digits.foldl (fun n c => 10 * n + (c.toNat - 48)) 0
  if digits ≠ [] ∧ digits.all Char.isDigit ∧ value < bound then some value else none

def parseU64 : Text → Option Nat :=
  parseNumber 18446744073709551616

def splitWhitespace (text : Text) : List Text :=
  (text.splitOnP Text.isWhitespace).filter (!·.isEmpty)

def parseBlockId (line : Text) : Option BlockId :=
  match (splitWhitespace line).drop 1 with
  | [time, number, flags] => do some ⟨← parseU64 time, ← parseU64 number, ← parseU64 flags⟩
  | _ => none

def idArg (token : Text) : Option Text :=
  if 1 < token.length ∧ (token.head? = some '%' ∨ token.head? = some '@' ∨ token.head? = some '$') then
    some token
  else
    none

def restAfterKeyword (line : Text) (keyword : String) : Option Text :=
  (Text.stripLiteral keyword.toList line).map (·.dropWhile Text.isWhitespace)

def argsId (line : Text) (keyword : String) : Option Text := do
  idArg (← (splitWhitespace (← restAfterKeyword line keyword)).head?)

-- The digits at the front, as a number that stays at the largest one.
def parseU32 (input : Text) : Option (Nat × Text) :=
  let digits := input.takeWhile Char.isDigit
  if digits = [] then none
  else
    some (digits.foldl (fun n c => min (min (n * 10) 4294967295 + (c.toNat - 48)) 4294967295) 0,
      input.drop digits.length)

def expect (c : Char) (input : Text) : Option Text :=
  if input.head? = some c then some input.tail else none

mutual

def parseCell : (fuel : Nat) → Text → Option (LayoutCell × Text)
  | 0, _ => none
  | fuel + 1, input => do
    let (width, input) ← parseU32 input
    let (height, input) ← parseU32 (← expect 'x' input)
    let (x, input) ← parseU32 (← expect ',' input)
    let (y, input) ← parseU32 (← expect ',' input)
    if input.head? = some '\x7b' ∨ input.head? = some '[' then
      let columns : Bool := input.head? = some '\x7b'
      let (children, input) ← parseCells (if columns then '\x7d' else ']') fuel input.tail
      some (⟨width, height, x, y, none, columns, children⟩, input)
    else if input.head? = some ',' then
      match parseU32 input.tail with
      | none => some (⟨width, height, x, y, none, false, []⟩, input.tail)
      | some (pane, input) => some (⟨width, height, x, y, some pane, false, []⟩, input)
    else
      some (⟨width, height, x, y, none, false, []⟩, input)

def parseCells (closer : Char) : (fuel : Nat) → Text → Option (List LayoutCell × Text)
  | 0, _ => none
  | fuel + 1, input => do
    let (child, input) ← parseCell fuel input
    if input.head? = some ',' then
      let (children, input) ← parseCells closer fuel input.tail
      some (child :: children, input)
    else if input.head? = some closer then
      some ([child], input.tail)
    else
      some ([child], input)

end

def isHexDigit (c : Char) : Bool :=
  c.isDigit ∨ 'a' ≤ c ∧ c ≤ 'f' ∨ 'A' ≤ c ∧ c ≤ 'F'

-- The root cell and how much was read. A cell is longer than the cells in it, so that the fuel is
-- enough.
def parseLayout (input : Text) : Option (LayoutCell × Nat) := do
  let body ← expect ',' (input.dropWhile isHexDigit)
  let (cell, rest) ← parseCell (2 * body.length + 1) body
  some (cell, input.length - rest.length)

-- What stands before the first occurrence of a text, and after it.
def splitOnce (pattern : Text) : Text → Option (Text × Text)
  | [] => none
  | c :: cs =>
    if pattern.isPrefixOf (c :: cs) then some ([], (c :: cs).drop pattern.length)
    else (splitOnce pattern cs).map fun p => (c :: p.1, p.2)

def toUtf8 (text : Text) : Bytes :=
  text.flatMap String.utf8EncodeChar

def isKeywordChar (c : Char) : Bool :=
  c.isAlphanum ∨ c = '-'

def firstWord (line : Text) (keyword : String) : Option Text := do
  (splitWhitespace (← restAfterKeyword line keyword)).head?

-- The notifications, by their keyword.
def parseNotification (keyword : Text) (line : Text) : Option ControlMessage :=
  let is (word : String) : Bool := keyword = word.toList
  if is "begin" then do some (.begin (← parseBlockId line))
  else if is "end" then do some (.end (← parseBlockId line))
  else if is "error" then do some (.error (← parseBlockId line))
  else if is "layout-change" then do
    let parts := splitWhitespace (← restAfterKeyword line "%layout-change")
    let (layout, _) ← parseLayout (← parts[1]?)
    let visible := ((parts[2]?.bind parseLayout).map Prod.fst).getD layout
    some (.layoutChange (← parts[0]?) layout visible (parts[3]?.getD []))
  else if is "window-add" || is "unlinked-window-add" then do
    some (.windowAdd (← (argsId line "%window-add").or (argsId line "%unlinked-window-add")))
  else if is "window-close" || is "unlinked-window-close" then do
    some (.windowClose (← (argsId line "%window-close").or (argsId line "%unlinked-window-close")))
  else if is "window-renamed" then do
    let (window, name) ← splitOnce [' '] (← restAfterKeyword line "%window-renamed")
    some (.windowRenamed window name)
  else if is "window-pane-changed" then do
    let parts := splitWhitespace (← restAfterKeyword line "%window-pane-changed")
    some (.windowPaneChanged (← parts[0]?) (← parts[1]?))
  else if is "pane-exited" then do some (.paneExited (← argsId line "%pane-exited"))
  else if is "pane-mode-changed" then do some (.paneModeChanged (← argsId line "%pane-mode-changed"))
  else if is "session-changed" then do some (.sessionChanged (← firstWord line "%session-changed"))
  else if is "session-window-changed" then do
    let parts := splitWhitespace (← restAfterKeyword line "%session-window-changed")
    some (.sessionWindowChanged (← parts[1]?))
  else if is "session-renamed" then do some (.sessionRenamed (← firstWord line "%session-renamed"))
  else if is "sessions-changed" then some .sessionsChanged
  else if is "client-session-changed" then some .clientSessionChanged
  else if is "client-detached" then do
    some (.clientDetached (← restAfterKeyword line "%client-detached"))
  else if is "pause" then do some (.pause (← argsId line "%pause"))
  else if is "continue" then do some (.continue (← argsId line "%continue"))
  else if is "exit" then some (.exit ((restAfterKeyword line "%exit").filter (!·.isEmpty)))
  else if is "config-error" then do some (.configError (← restAfterKeyword line "%config-error"))
  else if is "message" then do some (.message (← restAfterKeyword line "%message"))
  else some .ignored

-- A line without its end, which is text for the handshake.
def parseLine (line : Text) : Option ControlMessage :=
  if "%output ".toList.isPrefixOf line then do
    let (pane, data) ← splitOnce [' '] (line.drop 8)
    some (.output pane (unescapeOctal (toUtf8 data)))
  else if "%extended-output ".toList.isPrefixOf line then do
    let (head, data) ← splitOnce " : ".toList (line.drop 17)
    let words := splitWhitespace head
    some (.extendedOutput (← words[0]?) (← parseU64 (← words[1]?)) (unescapeOctal (toUtf8 data)))
  else do
    let rest ← expect '%' line
    parseNotification (rest.takeWhile isKeywordChar) line

end NyaTerm.Tmux
