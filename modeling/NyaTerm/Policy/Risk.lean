import Mathlib.Data.List.Infix
import NyaTerm.Lib.Text

-- The assessment of the risk of a shell command, on which automatic execution rests.
namespace NyaTerm.Policy

inductive RiskLevel
  | low
  | medium
  | high
  | critical
  deriving DecidableEq

structure RiskAssessment where
  level : RiskLevel
  reason : String
  autoExecutable : Bool
  deriving DecidableEq

inductive StageClass
  | readOnly
  | write
  | unknown
  deriving DecidableEq

section Words

variable (token : String)

def startsWith (start : String) : Bool :=
  start.toList.isPrefixOf token.toList

def hasChar (c : Char) : Bool :=
  c ∈ token.toList

def isOption : Bool :=
  startsWith token "-"

def isAssignment : Bool :=
  hasChar token '=' && !startsWith token "="

-- What follows the last separator.
def basename : String :=
  String.ofList (token.toList.reverse.takeWhile (· ∉ ['/', '\\'])).reverse

def isSeparator : Bool :=
  token ∈ [";", "&", "&&", "||", "|"]

def isRedirection : Bool :=
  token ∈ [">", ">>"]

end Words

-- The command that a stage runs, past assignments and past the options of `env`.
def executableAndArgs (stage : List String) : Option (String × List String) :=
  match stage.dropWhile isAssignment with
  | [] => none
  | command :: args =>
    if basename command = "env" then
      match args.dropWhile (fun token => isOption token || isAssignment token) with
      | [] => some ("env", [])
      | nested :: args => some (basename nested, args)
    else
      some (basename command, args)

def readOnlyCommands : List String :=
  ["ls", "pwd", "whoami", "id", "uname", "cat", "less", "head", "tail", "grep", "rg", "find", "df",
   "du", "free", "top", "htop", "ps", "ss", "netstat", "journalctl", "printenv", "which", "whereis"]

def ordinaryWriteCommands : List String :=
  ["touch", "mkdir", "cp", "mv", "chmod", "chown", "setfacl", "export"]

def firstArg (args : List String) (accepted : List String) : Bool :=
  args.head?.any (· ∈ accepted)

def anyArg (args : List String) (accepted : List String) : Bool :=
  args.any (· ∈ accepted)

def classifyCommand (command : String) (args : List String) : StageClass :=
  if command ∈ readOnlyCommands then
    .readOnly
  else if command = "env" && args.isEmpty then
    .readOnly
  else if command = "ip" && (args.isEmpty ||
      firstArg args ["a", "addr", "address", "link", "route", "neigh", "rule"]) then
    .readOnly
  else if command = "systemctl" && firstArg args ["status"] then
    .readOnly
  else if command = "docker" && firstArg args ["ps", "logs", "inspect"] then
    .readOnly
  else if command = "kubectl" && firstArg args ["get", "describe", "logs", "explain"] then
    .readOnly
  else if command = "git" && firstArg args ["status", "log", "diff", "show"] then
    .readOnly
  else if command ∈ ordinaryWriteCommands then
    .write
  else if command = "git" &&
      firstArg args ["checkout", "switch", "pull", "merge", "add", "commit"] then
    .write
  else if command = "make" && anyArg args ["install"] then
    .write
  else
    .unknown

def classifyStage (stage : List String) : StageClass :=
  match executableAndArgs stage with
  | none => .unknown
  | some (command, args) => classifyCommand command args

def forkBomb : String := ":(){:|:&};:"

def isRootRmArgs (args : List String) : Bool :=
  args.any (fun arg => isOption arg && hasChar arg 'r' && hasChar arg 'f') &&
    anyArg args ["/", "/*", "--no-preserve-root"]

def isCriticalCommand (stage : List String) (command : String) (args : List String) : Bool :=
  command = "rm" && isRootRmArgs args ||
  command = "dd" && args.any (startsWith · "of=/dev/") ||
  command ∈ ["mkfs", "wipefs", "shutdown", "poweroff", "reboot", "halt"] ||
  startsWith command "mkfs." ||
  command = "systemctl" && firstArg args ["stop"] &&
    anyArg args.tail ["ssh", "sshd", "ssh.service", "sshd.service"] ||
  command = "service" && firstArg args ["ssh", "sshd"] && firstArg args.tail ["stop"] ||
  forkBomb.toList <:+: stage.flatMap String.toList

def isCriticalStage (stage : List String) : Bool :=
  (executableAndArgs stage).any fun (command, args) => isCriticalCommand stage command args

def isSensitiveTerminalPath (value : String) : Bool :=
  (["/etc", "/boot", "/bin", "/sbin", "/usr", "/lib", "/lib64", "/var/lib", "/root"].any fun root =>
    value = root || startsWith value (root ++ "/")) ||
  value = "~/.ssh" || startsWith value "~/.ssh/" || "/.ssh/".toList <:+: value.toList

def isSqlChar (c : Char) : Bool :=
  c.isAlphanum || c = '_'

-- The words between the characters that are not part of a word.
def sqlWords (arg : String) : List (List Char) :=
  arg.toList.splitOnP fun c => !isSqlChar c

def containsSqlWord (args : List String) (needle : String) : Bool :=
  args.any fun arg => needle.toList ∈ sqlWords arg

def isHighRiskCommand (command : String) (args : List String) : Bool :=
  command ∈ ["sudo", "doas", "su"] ||
  command ∈ ["rm", "rmdir", "truncate", "iptables", "ip6tables", "nft", "ufw", "useradd", "userdel",
    "usermod", "passwd", "visudo"] ||
  command = "find" && anyArg args ["-delete", "-exec", "-execdir"] ||
  command = "ip" && anyArg args ["add", "delete", "del", "replace", "change", "set", "flush"] ||
  command ∈ ["chmod", "chown"] &&
    args.any (fun arg => isOption arg && (hasChar arg 'r' || hasChar arg 'R')) ||
  command ∈ ["cp", "mv", "chmod", "chown"] && args.any isSensitiveTerminalPath ||
  command = "sed" && args.any (startsWith · "-i") ||
  command = "perl" && args.any (fun arg => isOption arg && hasChar arg 'p' && hasChar arg 'i') ||
  command = "systemctl" && firstArg args ["restart", "stop", "disable", "mask"] ||
  command = "service" ||
  command ∈ ["apt", "apt-get", "yum", "dnf", "pacman", "brew", "pip", "pip3"] &&
    anyArg args ["install", "remove", "purge", "uninstall", "-s", "-r"] ||
  command = "npm" && anyArg args ["-g", "--global"] ||
  command = "docker" && (firstArg args ["rm", "rmi"] || ["system", "prune"].isPrefixOf args ||
    ["compose", "down"].isPrefixOf args) ||
  command = "kubectl" && firstArg args ["delete", "drain", "apply", "replace"] ||
  command = "terraform" && firstArg args ["apply", "destroy"] ||
  command = "helm" && firstArg args ["uninstall"] ||
  command = "git" && (firstArg args ["reset"] && anyArg args ["--hard"] ||
    firstArg args ["clean"] && args.any (fun arg => isOption arg && hasChar arg 'f')) ||
  command ∈ ["mysql", "psql"] && containsSqlWord args "drop" ||
  command = "redis-cli" && anyArg args ["flushall", "flushdb"]

def isHighRiskStage (stage : List String) : Bool :=
  (executableAndArgs stage).any fun (command, args) => isHighRiskCommand command args

def runs (stage commands : List String) : Bool :=
  (executableAndArgs stage).any (·.1 ∈ commands)

-- The pipes behind the tokens `before`, with what stands between them and the nearest separators.
def downloadPipes (before : List String) : List String → Bool
  | [] => false
  | token :: tokens =>
    token = "|" &&
      runs (before.reverse.takeWhile (!isSeparator ·)).reverse ["curl", "wget"] &&
      runs (tokens.takeWhile (!isSeparator ·)) ["sh", "bash", "zsh", "fish"] ||
    downloadPipes (before ++ [token]) tokens

def isDownloadPipeToShell (tokens : List String) : Bool :=
  downloadPipes [] tokens

def hasSensitiveWriteRedirection (tokens : List String) : Bool :=
  (tokens.zip tokens.tail).any fun (token, target) =>
    isRedirection token && isSensitiveTerminalPath target

-- The stages between separators, without the signs of redirections.
def commandStages : List String → (current : List String) → List (List String)
  | [], current => if current.isEmpty then [] else [current]
  | token :: tokens, current =>
    if isSeparator token then
      if current.isEmpty then commandStages tokens []
      else current :: commandStages tokens []
    else if isRedirection token then
      commandStages tokens current
    else
      commandStages tokens (current ++ [token])

def pushToken (current : List Char) (tokens : List String) : List String :=
  if current.isEmpty then tokens else String.ofList current :: tokens

-- A character may be taken literally behind a backslash, or have been taken with the one before.
inductive Mode
  | normal
  | escaped
  | taken

-- An operator is one character, or two that are the same.
def isDoubled (c : Char) (cs : List Char) : Bool :=
  cs.head? = some c ∧ c ≠ ';'

def tokenizeShell (current : List Char) (quote : Option Char) : Mode → List Char → List String
  | _, [] => pushToken current []
  | .escaped, c :: cs => tokenizeShell (current ++ [c]) quote .normal cs
  | .taken, _ :: cs => tokenizeShell current quote .normal cs
  | .normal, c :: cs =>
    if c = '\\' ∧ quote ≠ some '\'' then
      tokenizeShell current quote .escaped cs
    else if c = '\'' ∨ c = '"' then
      if quote = some c then tokenizeShell current none .normal cs
      else if quote = none then tokenizeShell current (some c) .normal cs
      else tokenizeShell (current ++ [c]) quote .normal cs
    else if quote = none ∧ c = '\n' then
      pushToken current (";" :: tokenizeShell [] quote .normal cs)
    else if quote = none ∧ Text.isWhitespace c then
      pushToken current (tokenizeShell [] quote .normal cs)
    else if quote = none ∧ c ∈ [';', '|', '&', '>'] then
      if isDoubled c cs then
        pushToken current (String.ofList [c, c] :: tokenizeShell [] quote .taken cs)
      else
        pushToken current (String.ofList [c] :: tokenizeShell [] quote .normal cs)
    else
      tokenizeShell (current ++ [c]) quote .normal cs

def unixLines : List Char → List Char
  | [] => []
  | '\r' :: '\n' :: cs => '\n' :: unixLines cs
  | c :: cs => (if c = '\r' then '\n' else c) :: unixLines cs

def normalized (command : String) : List Char :=
  unixLines (Text.trim command.toList)

def tokensOf (command : String) : List String :=
  tokenizeShell [] none .normal ((normalized command).map Char.toLower)

def assessStages (tokens : List String) (stages : List (List String)) : RiskAssessment :=
  if stages.any isCriticalStage then
    ⟨.critical, "matches irreversible or system-disruptive command pattern", false⟩
  else if isDownloadPipeToShell tokens || hasSensitiveWriteRedirection tokens ||
      stages.any isHighRiskStage then
    ⟨.high, "matches privileged or high-impact mutation pattern", false⟩
  else if stages.any (classifyStage · = .unknown) then
    ⟨.medium, "command is not explicitly classified as safe for automatic execution", false⟩
  else if tokens.any isRedirection || stages.any (classifyStage · = .write) then
    ⟨.medium, "matches a known ordinary state-changing command pattern", true⟩
  else
    ⟨.low, "matches read-only diagnostic command patterns", true⟩

def assessCommandRisk (command : String) : RiskAssessment :=
  if normalized command = [] then
    ⟨.medium, "empty command", false⟩
  else if forkBomb.toList <:+: (normalized command).filter (!Text.isWhitespace ·) then
    ⟨.critical, "matches irreversible or system-disruptive command pattern", false⟩
  else
    let tokens := tokensOf command
    let stages := commandStages tokens []
    if tokens = [] then
      ⟨.medium, "command could not be classified", false⟩
    else if stages = [] then
      ⟨.medium, "command could not be classified", false⟩
    else
      assessStages tokens stages

end NyaTerm.Policy
