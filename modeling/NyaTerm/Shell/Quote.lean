import NyaTerm.Lib.Posix

-- The texts that are handed to shells, with strings from elsewhere in quotes.
namespace NyaTerm.Shell

-- Quotes in a string close the text in quotes and open it again.
def escapeQuotes (value : String) : String :=
  String.ofList (Text.replace '\'' "'\\''".toList value.toList)

def shSingleQuote (value : String) : String :=
  "'" ++ escapeQuotes value ++ "'"

def shellQuote (value : String) : String :=
  if value = "" then "''" else "'" ++ escapeQuotes value ++ "'"

-- A path is kept from being read as an option.
def protectPath (path : String) : String :=
  if path.toList.head? = some '-' then "./" ++ path else path

def shellQuotePath (path : String) : String :=
  if path.toList.head? = some '-' then shellQuote ("./" ++ path) else shellQuote path

inductive DirectoryShell
  | posix
  | powerShell
  | cmd
  deriving DecidableEq

def validTerminalDirectoryPath (path : String) : Bool :=
  Text.trim path.toList ≠ [] ∧ path.toList.all fun c => !Text.isControl c

-- A drive becomes a directory of the root, as the shells of Windows see it.
def windowsPath : List Char → List Char
  | drive :: ':' :: sep :: path =>
    if drive.isAlpha ∧ (sep = '/' ∨ sep = '\\') then
      Text.replace '\\' ['/'] ('/' :: drive.toLower :: sep :: path)
    else
      Text.replace '\\' ['/'] (drive :: ':' :: sep :: path)
  | path => Text.replace '\\' ['/'] path

-- The path as the shell is to be given it.
def shellPath (path : String) (shell : DirectoryShell) (windowsPosix : Bool) : String :=
  if shell = .posix ∧ windowsPosix then String.ofList (windowsPath path.toList) else path

def buildDirectoryChangeCommand (path : String) (shell : DirectoryShell) (windowsPosix : Bool) :
    Option String :=
  if !validTerminalDirectoryPath path then
    none
  else
    match shell with
    | .powerShell =>
      some ("Set-Location -LiteralPath '" ++
        String.ofList (Text.replace '\'' "''".toList path.toList) ++ "'")
    | .cmd =>
      if path.toList.any (· ∈ ['"', '%', '!']) then none else some ("cd /d \"" ++ path ++ "\"")
    | .posix =>
      some ("cd '" ++ escapeQuotes (shellPath path .posix windowsPosix) ++ "'")

end NyaTerm.Shell
