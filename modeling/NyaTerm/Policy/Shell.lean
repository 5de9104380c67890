import Mathlib.Data.List.Chain
import NyaTerm.Policy.Risk

-- What a POSIX shell makes of a command: scripts of words and operators, their text, and the programs
-- that are started for them. Compound commands, here-documents and the expansions of variables and
-- file names are left out.
namespace NyaTerm.Policy.Shell

-- What stands between double quotes.
inductive Quoted
  | char (c : Char)
  | escaped (c : Char)
  | substitution (text : List Char)
  | backquoted (text : List Char)
  deriving DecidableEq

inductive Part
  | plain (c : Char)
  | escaped (c : Char)
  | single (cs : List Char)
  | double (parts : List Quoted)
  | substitution (text : List Char)
  | backquoted (text : List Char)
  | process (sign : Char) (text : List Char)
  deriving DecidableEq

abbrev Word := List Part

inductive Operator
  | semicolon
  | ampersand
  | and
  | or
  | pipe
  | newline
  deriving DecidableEq

inductive Item
  | blank (c : Char)
  | word (word : Word)
  | operator (operator : Operator)
  -- The word that follows is the file.
  | redirection (sign : List Char)
  deriving DecidableEq

abbrev Script := List Item

-- A script in backquotes, which may not have backquotes of its own.
def isBackquotable (text : List Char) : Bool :=
  '`' ∉ text ∧ '\\' ∉ text

namespace Quoted

def text : Quoted → List Char
  | .char c => [c]
  | .escaped c => ['\\', c]
  | .substitution text => ['$', '('] ++ text ++ [')']
  | .backquoted text => ['`'] ++ text ++ ['`']

-- The characters with a meaning between double quotes, which a backslash takes from them.
def special : List Char := ['$', '`', '"', '\\']

def isReadable : Quoted → Bool
  | .char c => c ∉ special
  | .backquoted text => isBackquotable text
  | _ => true

-- Known without running a program.
def isStatic : Quoted → Bool
  | .char _ | .escaped _ => true
  | _ => false

def content : Quoted → List Char
  | .char c => [c]
  | .escaped c => if c ∈ special then [c] else ['\\', c]
  | _ => []

def scripts : Quoted → List (List Char)
  | .substitution text | .backquoted text => [text]
  | _ => []

end Quoted

namespace Part

def text : Part → List Char
  | .plain c => [c]
  | .escaped c => ['\\', c]
  | .single cs => ['\''] ++ cs ++ ['\'']
  | .double parts => ['"'] ++ parts.flatMap Quoted.text ++ ['"']
  | .substitution text => ['$', '('] ++ text ++ [')']
  | .backquoted text => ['`'] ++ text ++ ['`']
  | .process sign text => [sign, '('] ++ text ++ [')']

-- The characters that end a word or have a meaning in it, outside quotes.
def special : List Char :=
  [' ', '\t', '\n', '\'', '"', '\\', '$', '`', ';', '&', '|', '<', '>', '(', ')']

def isReadable : Part → Bool
  | .plain c => c ∉ special
  | .escaped c => c ≠ '\n'
  | .single cs => '\'' ∉ cs
  | .double parts => parts.all Quoted.isReadable
  | .backquoted text => isBackquotable text
  | .process sign _ => sign ∈ ['<', '>']
  | .substitution _ => true

def isStatic : Part → Bool
  | .plain _ | .escaped _ | .single _ => true
  | .double parts => parts.all Quoted.isStatic
  | _ => false

def content : Part → List Char
  | .plain c | .escaped c => [c]
  | .single cs => cs
  | .double parts => parts.flatMap Quoted.content
  | _ => []

-- The scripts that are run for the sake of their output.
def scripts : Part → List (List Char)
  | .double parts => parts.flatMap Quoted.scripts
  | .substitution text | .backquoted text | .process _ text => [text]
  | _ => []

end Part

namespace Word

def text (word : Word) : List Char :=
  word.flatMap Part.text

-- A word does not start like a comment.
def isReadable (word : Word) : Bool :=
  word ≠ [] ∧ word.head? ≠ some (.plain '#') ∧ word.all Part.isReadable

def content (word : Word) : List Char :=
  word.flatMap Part.content

def value (word : Word) : String :=
  String.ofList (content word)

def isNameChar (c : Char) : Bool :=
  c.isAlphanum || c = '_'

-- A name, not in quotes, and a sign of equality behind it.
def isAssignmentFrom (name : List Char) : Word → Bool
  | .plain c :: word =>
    if c = '=' then name ≠ [] else isNameChar c && isAssignmentFrom (name ++ [c]) word
  | _ => false

def startsWithDigit : Word → Bool
  | .plain c :: _ => c.isDigit
  | _ => false

def isAssignment (word : Word) : Bool :=
  isAssignmentFrom [] word && !startsWithDigit word

end Word

def Operator.text : Operator → List Char
  | .semicolon => [';']
  | .ampersand => ['&']
  | .and => ['&', '&']
  | .or => ['|', '|']
  | .pipe => ['|']
  | .newline => ['\n']

namespace Item

def text : Item → List Char
  | .blank c => [c]
  | .word w => Word.text w
  | .operator o => o.text
  | .redirection sign => sign

def isReadable : Item → Bool
  | .blank c => c ∈ [' ', '\t']
  | .word w => Word.isReadable w
  | .operator _ => true
  | .redirection sign => sign = ['<'] ∨ sign = ['>'] ∨ sign = ['>', '>']

-- Two items that are still two when nothing stands between them.
def Fits : Item → Item → Prop
  | .word _, .word _ => False
  | .operator .ampersand, .operator .ampersand => False
  | .operator .ampersand, .operator .and => False
  | .operator .pipe, .operator .pipe => False
  | .operator .pipe, .operator .or => False
  | _, _ => True

end Item

namespace Script

def text (script : Script) : List Char :=
  script.flatMap Item.text

structure Readable (script : Script) : Prop where
  items : ∀ item ∈ script, item.isReadable
  fits : script.IsChain Item.Fits

-- The words between operators, without the files of redirections.
def commands : Script → (file : Bool) → (current : List Word) → List (List Word)
  | [], _, current => [current]
  | .blank _ :: script, file, current => commands script file current
  | .redirection _ :: script, _, current => commands script true current
  | .operator _ :: script, _, current => current :: commands script false []
  | .word _ :: script, true, current => commands script false current
  | .word w :: script, false, current => commands script false (current ++ [w])

-- The words of a command that are the program and its arguments.
def argv (command : List Word) : List Word :=
  command.dropWhile Word.isAssignment

-- The programs that are started, as far as their arguments are known.
def programs (script : Script) : List (List String) :=
  (((commands script false []).map argv).filter fun words =>
    words ≠ [] ∧ words.all fun word => word.all Part.isStatic).map fun words => words.map Word.value

def scripts (script : Script) : List (List Char) :=
  script.flatMap fun item =>
    match item with
    | .word w => w.flatMap Part.scripts
    | _ => []

end Script

-- The text of the option -S of `env` is split at the blanks.
def splitBlanks (text : List Char) : List String :=
  ((text.splitOn ' ').filter (· ≠ [])).map String.ofList

def envOperands : List String → List String
  | [] => []
  | arg :: args =>
    if arg = "-S" then
      match args with
      | [] => []
      | text :: args => splitBlanks text.toList ++ args
    else if arg = "-u" ∨ arg = "-C" then
      match args with
      | [] => []
      | _ :: args => envOperands args
    else if startsWith arg "-S" then
      splitBlanks (arg.toList.drop 2) ++ args
    else if isOption arg then
      envOperands args
    else
      arg :: args

-- `env` runs the program behind its options and assignments.
def envProgram (argv : List String) : Option (List String) :=
  match argv with
  | [] => none
  | program :: args =>
    if basename program = "env" then
      match (envOperands args).dropWhile isAssignment with
      | [] => none
      | nested :: args => some (nested :: args)
    else
      none

-- The programs that a script starts by itself, and those that are run through `env`.
inductive Runs (script : Script) : List String → Prop
  | command {argv : List String} : argv ∈ script.programs → Runs script argv
  | env {argv nested : List String} : Runs script argv → envProgram argv = some nested →
    Runs script nested

-- The programs that are started when a shell is given a text, also in order to complete its words.
inductive Starts : List Char → List String → Prop
  | runs {script : Script} {argv : List String} : script.Readable → Runs script argv →
    Starts script.text argv
  | inside {script : Script} {inner : List Char} {argv : List String} : script.Readable →
    inner ∈ script.scripts → Starts inner argv → Starts script.text argv

end NyaTerm.Policy.Shell
