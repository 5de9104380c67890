import NyaTerm.Lib.Text

-- How a POSIX shell puts characters together to words and operators (Shell Command Language, 2.2
-- and 2.3). Here-documents, aliases and the braces of parameter expansions are left out.
namespace Posix

mutual

-- A character that is quoted stands for itself, others may have a meaning in expansions.
inductive Piece
  | quoted (c : Char)
  | bare (c : Char)
  | substitution (tokens : List Token)
  -- The program between backquotes.
  | backquoted (program : List Char)

inductive Token
  | word (pieces : List Piece)
  | operator (c : Char)

end

abbrev Word := List Piece

inductive Quoting
  | none
  | escaped
  | single
  | double
  | doubleEscaped
  | comment
  | backquote (program : List Char) (double escaped : Bool)
  deriving DecidableEq

-- What ends a text: nothing but its end, the parenthesis of a substitution or of a group.
inductive Closer
  | input
  | parenthesis
  | group
  deriving DecidableEq

structure Level where
  closer : Closer
  tokens : List Token
  word : Option Word
  quoting : Quoting

namespace Level

def new (closer : Closer) : Level :=
  ⟨closer, [], none, .none⟩

def add (level : Level) (piece : Piece) : Level :=
  { level with word := some (level.word.getD [] ++ [piece]) }

-- A quote begins a word, even if nothing is quoted.
def begin (level : Level) (quoting : Quoting) : Level :=
  { level with word := some (level.word.getD []), quoting }

def endWord (level : Level) : Level :=
  match level.word with
  | none => level
  | some word => { level with word := none, tokens := level.tokens ++ [.word word] }

def operator (level : Level) (c : Char) : Level :=
  { level.endWord with tokens := level.endWord.tokens ++ [.operator c] }

def afterDollar (level : Level) : Bool :=
  match level.word.bind List.getLast? with
  | some (.bare c) => c = '$'
  | _ => false

def withoutDollar (level : Level) : Level :=
  { level with word := level.word.map List.dropLast }

end Level

-- The text that is being read, and the texts that enclose it.
structure Lexer where
  level : Level
  outer : List Level

namespace Lexer

def new : Lexer :=
  ⟨.new .input, []⟩

def enter (lexer : Lexer) (closer : Closer) : Lexer :=
  ⟨.new closer, lexer.level :: lexer.outer⟩

def leave (lexer : Lexer) : Lexer :=
  let tokens := lexer.level.endWord.tokens
  match lexer.outer with
  | [] => { lexer with level := lexer.level.operator ')' }
  | level :: outer =>
    if lexer.level.closer = .group then
      ⟨{ level with tokens := level.tokens ++ tokens ++ [.operator ')'] }, outer⟩
    else
      ⟨level.add (.substitution tokens), outer⟩

def update (lexer : Lexer) (f : Level → Level) : Lexer :=
  { lexer with level := f lexer.level }

def isBlank (c : Char) : Bool :=
  c = ' ' ∨ c = '\t'

def operators : List Char := [';', '&', '|', '<', '>', '\n']

-- The characters that a backslash takes their meaning from, between double quotes.
def special : List Char := ['$', '`', '"', '\\']

def stepBare (lexer : Lexer) (c : Char) : Lexer :=
  if c = '\\' then lexer.update ({ · with quoting := .escaped })
  else if c = '\'' then lexer.update (·.begin .single)
  else if c = '"' then lexer.update (·.begin .double)
  else if c = '`' then lexer.update (·.begin (.backquote [] false false))
  else if c = '(' then
    if lexer.level.afterDollar then (lexer.update Level.withoutDollar).enter .parenthesis
    else (lexer.update (·.operator '(')).enter .group
  else if c = ')' then
    if lexer.level.closer = .parenthesis ∨ lexer.level.closer = .group then lexer.leave
    else lexer.update (·.operator ')')
  else if isBlank c then lexer.update Level.endWord
  else if c ∈ operators then lexer.update (·.operator c)
  else if c = '#' ∧ lexer.level.word.isNone then lexer.update ({ · with quoting := .comment })
  else lexer.update (·.add (.bare c))

def stepDouble (lexer : Lexer) (c : Char) : Lexer :=
  if c = '"' then lexer.update ({ · with quoting := .none })
  else if c = '\\' then lexer.update ({ · with quoting := .doubleEscaped })
  else if c = '`' then lexer.update (·.begin (.backquote [] true false))
  else if c = '(' ∧ lexer.level.afterDollar then
    (lexer.update Level.withoutDollar).enter .parenthesis
  else if c = '$' then lexer.update (·.add (.bare c))
  else lexer.update (·.add (.quoted c))

-- The first backquote that is not escaped ends the program. A backslash is taken away in front of
-- some characters before the program is read (2.6.3).
def stepBackquote (lexer : Lexer) (program : List Char) (double escaped : Bool) (c : Char) : Lexer :=
  if escaped then
    let kept := if c ∈ ['$', '`', '\\'] then [c] else ['\\', c]
    lexer.update ({ · with quoting := .backquote (program ++ kept) double false })
  else if c = '\\' then lexer.update ({ · with quoting := .backquote program double true })
  else if c = '`' then
    lexer.update fun level =>
      { level.add (.backquoted program) with quoting := if double then .double else .none }
  else lexer.update ({ · with quoting := .backquote (program ++ [c]) double false })

def step (lexer : Lexer) (c : Char) : Lexer :=
  match lexer.level.quoting with
  | .none => lexer.stepBare c
  | .double => lexer.stepDouble c
  | .single =>
    if c = '\'' then lexer.update ({ · with quoting := .none })
    else lexer.update (·.add (.quoted c))
  | .escaped =>
    -- A line is continued without a trace.
    if c = '\n' then lexer.update ({ · with quoting := .none })
    else lexer.update fun level => { level.add (.quoted c) with quoting := .none }
  | .doubleEscaped =>
    if c = '\n' then lexer.update ({ · with quoting := .double })
    else if c ∈ special then
      lexer.update fun level => { level.add (.quoted c) with quoting := .double }
    else
      lexer.update fun level =>
        { (level.add (.quoted '\\')).add (.quoted c) with quoting := .double }
  | .comment =>
    if c = '\n' then lexer.update fun level => { level.operator c with quoting := .none }
    else lexer
  | .backquote program double escaped => lexer.stepBackquote program double escaped c

def read (lexer : Lexer) (text : List Char) : Lexer :=
  text.foldl step lexer

-- A word may stand here.
structure AtWord (lexer : Lexer) : Prop where
  quoting : lexer.level.quoting = .none
  word : lexer.level.word = none

end Lexer

-- The characters that are expanded unless they are quoted.
def expanding : List Char := ['$', '*', '?', '[', '~']

def Piece.literal? : Piece → Option Char
  | .quoted c => some c
  | .bare c => if c ∈ expanding then none else some c
  | .substitution _ => none
  | .backquoted _ => none

-- What a word stands for, if it is known without any expansion.
def Word.literal? (word : Word) : Option (List Char) :=
  word.mapM Piece.literal?

def Token.literal? : Token → Option (List Char)
  | .word pieces => Word.literal? pieces
  | .operator _ => none

-- The words of a text that is one simple command without expansions, and that leaves nothing open.
def command? (text : List Char) : Option (List (List Char)) :=
  let lexer := Lexer.new.read text
  if lexer.level.quoting = .none ∧ lexer.outer.isEmpty then
    lexer.level.endWord.tokens.mapM Token.literal?
  else
    none

section Quote

-- A text in single quotes, which are left for each quote in it.
def quote (text : List Char) : List Char :=
  '\'' :: Text.replace '\'' ['\'', '\\', '\'', '\''] text ++ ['\'']

def quoted (text : List Char) : Word :=
  text.map .quoted

open Lexer

theorem read_append (lexer : Lexer) (text text' : List Char) :
    lexer.read (text ++ text') = (lexer.read text).read text' :=
  List.foldl_append

theorem read_cons (lexer : Lexer) (c : Char) (text : List Char) :
    lexer.read (c :: text) = (lexer.step c).read text :=
  rfl

-- A level whose word goes on with quoted characters.
def Level.quote (level : Level) (text : List Char) (quoting : Quoting) : Level :=
  { level with word := some (level.word.getD [] ++ quoted text), quoting }

-- Inside the quotes, the invariant is that all characters so far are quoted ones of the word.
theorem read_replaced (level : Level) (outer : List Level) (before text : List Char) :
    Lexer.read ⟨level.quote before .single, outer⟩ (Text.replace '\'' ['\'', '\\', '\'', '\''] text) =
      ⟨level.quote (before ++ text) .single, outer⟩ := by
  induction text generalizing before
  case nil => simp [Text.replace, Lexer.read]
  case cons c text ih =>
    have hstep : Lexer.read ⟨level.quote before .single, outer⟩
        (Text.replace '\'' ['\'', '\\', '\'', '\''] [c]) =
          ⟨level.quote (before ++ [c]) .single, outer⟩ := by
      by_cases hc : c = '\''
      case pos =>
        subst hc
        simp [Text.replace, Lexer.read, Lexer.step, Lexer.update, Level.quote, Lexer.stepBare,
          Level.begin, Level.add, quoted]
      case neg =>
        simp [Text.replace, Lexer.read, Lexer.step, Lexer.update, Level.quote, Level.add, quoted, hc]
    rw [Text.replace_cons, read_append, hstep, ih, List.append_assoc, List.singleton_append]

theorem read_quote {lexer : Lexer} (h : lexer.level.quoting = .none) (text : List Char) :
    lexer.read (quote text) = ⟨lexer.level.quote text .none, lexer.outer⟩ := by
  have ⟨level, outer⟩ := lexer
  have hopen : Lexer.step ⟨level, outer⟩ '\'' = ⟨level.quote [] .single, outer⟩ := by
    have hq : level.quoting = .none := h
    simp [Lexer.step, hq, Lexer.stepBare, Lexer.update, Level.begin, Level.quote, quoted]
  rw [quote, List.cons_append, read_cons, hopen, read_append, read_replaced]
  rfl

theorem literal?_quoted (text : List Char) : Word.literal? (quoted text) = some text := by
  induction text
  case nil => rfl
  case cons c text ih =>
    rw [Word.literal?, quoted, List.map_cons, List.mapM_cons]
    rw [Word.literal?, quoted] at ih
    simp [Piece.literal?, ih]

section

variable {lexer : Lexer} (h : lexer.level.quoting = .none)
include h

theorem step_blank (hc : isBlank c) : lexer.step c = lexer.update Level.endWord := by
  simp only [isBlank, decide_eq_true_eq] at hc
  rcases hc with rfl | rfl <;> simp [Lexer.step, h, Lexer.stepBare, isBlank]

theorem step_operator (hc : c ∈ operators) : lexer.step c = lexer.update (·.operator c) := by
  simp only [operators, List.mem_cons, List.not_mem_nil, or_false] at hc
  rcases hc with rfl | rfl | rfl | rfl | rfl | rfl <;>
    simp [Lexer.step, h, Lexer.stepBare, isBlank, operators]

end

-- Wherever a word may stand, the text is read as one word of quoted characters, which the next blank
-- or operator ends.
structure IsWord (text value : List Char) : Prop where
  read {lexer : Lexer} : lexer.AtWord →
    lexer.read text = lexer.update ({ · with word := some (quoted value) })
  blank {lexer : Lexer} {c : Char} : lexer.AtWord → isBlank c → lexer.read (text ++ [c]) =
    lexer.update ({ · with tokens := lexer.level.tokens ++ [.word (quoted value)] })
  operator {lexer : Lexer} {c : Char} : lexer.AtWord → c ∈ operators → lexer.read (text ++ [c]) =
    lexer.update ({ · with tokens := lexer.level.tokens ++ [.word (quoted value), .operator c] })

theorem isWord_quote (text : List Char) : IsWord (quote text) text := by
  have hread {lexer : Lexer} (h : lexer.AtWord) :
      lexer.read (quote text) = lexer.update ({ · with word := some (quoted text) }) := by
    simp [read_quote h.quoting, Lexer.update, Level.quote, h.word, h.quoting]
  refine ⟨hread, fun h hc => ?_, fun h hc => ?_⟩
  · rw [read_append, hread h, read_cons, step_blank (by exact h.quoting) hc]
    simp [Lexer.read, Lexer.update, Level.endWord, h.word]
  · rw [read_append, hread h, read_cons, step_operator (by exact h.quoting) hc]
    simp [Lexer.read, Lexer.update, Level.operator, Level.endWord, h.word]

-- A blank ends each word but the last, so that the next one may begin.
theorem read_quotes (texts : List (List Char)) {lexer : Lexer} (h : lexer.AtWord) :
    ∃ level, lexer.read ([' '].intercalate (texts.map quote)) = ⟨level, lexer.outer⟩ ∧
      level.quoting = .none ∧
      level.endWord.tokens = lexer.level.tokens ++ texts.map fun text => .word (quoted text) := by
  induction texts generalizing lexer
  case nil => exact ⟨lexer.level, rfl, h.quoting, by simp [Level.endWord, h.word]⟩
  case cons text texts ih =>
    cases texts
    case nil =>
      refine ⟨{ lexer.level with word := some (quoted text) }, ?_, h.quoting, rfl⟩
      rw [List.map_singleton, List.intercalate_singleton, (isWord_quote text).read h]
      rfl
    case cons next texts =>
      obtain ⟨level, hl, hq, ht⟩ := @ih (lexer.update
        ({ · with tokens := lexer.level.tokens ++ [.word (quoted text)] })) ⟨h.quoting, h.word⟩
      refine ⟨level, ?_, hq, by simp [ht, Lexer.update]⟩
      rw [List.map_cons, List.map_cons, List.intercalate_cons_cons, read_append,
        (isWord_quote text).blank h rfl]
      exact hl

theorem command?_quotes (texts : List (List Char)) (h : (Lexer.new.read front).AtWord)
    (ho : (Lexer.new.read front).outer = [])
    (ht : (Lexer.new.read front).level.tokens.mapM Token.literal? = some words) :
    command? (front ++ [' '].intercalate (texts.map quote)) = some (words ++ texts) := by
  obtain ⟨level, hl, hq, htokens⟩ := read_quotes texts h
  have hwords (texts : List (List Char)) :
      (texts.map fun text => Token.word (quoted text)).mapM Token.literal? = some texts := by
    induction texts
    case nil => rfl
    case cons text texts ih => simp [Token.literal?, literal?_quoted, ih]
  simp [command?, read_append, hl, hq, ho, htokens, ht, hwords]

end Quote

end Posix
