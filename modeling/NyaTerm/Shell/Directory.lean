import NyaTerm.Shell.Quote

-- How the shells read a command that changes the directory.
namespace NyaTerm.Shell

namespace PowerShell

-- The characters that are taken for single quotes.
def isSingleQuote (c : Char) : Bool :=
  c.toNat ∈ [39, 0x2018, 0x2019, 0x201A, 0x201B]

-- A quote ends a literal unless another one follows, which then stands for itself. What is left is
-- the text behind the literal.
def readLiteral : List Char → Option (List Char × List Char)
  | [] => none
  | c :: cs =>
    if isSingleQuote c then
      match cs with
      | [] => some ([], [])
      | d :: ds =>
        if isSingleQuote d then (readLiteral ds).map fun read => (d :: read.1, read.2)
        else some ([], d :: ds)
    else
      (readLiteral cs).map fun read => (c :: read.1, read.2)

inductive Argument
  | bare (text : List Char)
  | literal (content : List Char)
  deriving DecidableEq

def isBare (c : Char) : Bool :=
  c.isAlphanum || c = '-'

-- The arguments of a text that is one command of plain words and literals. There are no more of them
-- than characters.
def arguments : (rounds : Nat) → List Char → Option (List Argument)
  | 0, _ => none
  | _ + 1, [] => some []
  | rounds + 1, c :: cs =>
    if c = ' ' then
      arguments rounds cs
    else if isSingleQuote c then
      match readLiteral cs with
      | none => none
      | some (content, rest) => (arguments rounds rest).map (.literal content :: ·)
    else if isBare c then
      (arguments rounds (cs.dropWhile isBare)).map (.bare (c :: cs.takeWhile isBare) :: ·)
    else
      none

def operand? : List Argument → Option (List Char)
  | [.bare command, .bare parameter, .literal operand] =>
    if command = "Set-Location".toList ∧ parameter = "-LiteralPath".toList then some operand else none
  | _ => none

end PowerShell

namespace Cmd

-- The characters with a meaning outside quotes.
def special : List Char := ['&', '|', '<', '>', '(', ')', '^', '\n']

-- The words of a line that is one command without expansions. Quotes only protect.
def words (quoted : Bool) (word : Option (List Char)) : List Char → Option (List (List Char))
  | [] => some word.toList
  | c :: cs =>
    if c = '%' ∨ c = '!' then none
    else if c = '"' then words (!quoted) (some (word.getD [])) cs
    else if quoted then words quoted (some (word.getD [] ++ [c])) cs
    else if c = ' ' then (words quoted none cs).map (word.toList ++ ·)
    else if c ∈ special then none
    else words quoted (some (word.getD [] ++ [c])) cs

def operand? : List (List Char) → Option (List Char)
  | [command, option, operand] =>
    if command = "cd".toList ∧ option = "/d".toList then some operand else none
  | _ => none

end Cmd

-- An operand that begins with a hyphen is an option or means the previous directory.
def operand? : List (List Char) → Option (List Char)
  | [command, operand] =>
    if command = "cd".toList ∧ operand.head? ≠ some '-' then some operand else none
  | _ => none

-- The operand, if a text is one change of the directory and nothing else.
def directoryChange (shell : DirectoryShell) (text : List Char) : Option (List Char) :=
  match shell with
  | .posix => (Posix.command? text).bind operand?
  | .powerShell => (PowerShell.arguments (text.length + 1) text).bind PowerShell.operand?
  | .cmd => (Cmd.words false none text).bind Cmd.operand?

end NyaTerm.Shell
