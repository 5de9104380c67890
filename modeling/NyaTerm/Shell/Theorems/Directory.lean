import NyaTerm.Shell.Directory
import NyaTerm.Shell.Theorems.Quote

open List

namespace NyaTerm.Shell

section Posix

open Posix

theorem head_replace (cs : List Char) :
    (Text.replace '\\' ['/'] cs).head? = some '-' ↔ cs.head? = some '-' := by
  cases cs
  case nil => simp [Text.replace]
  case cons c cs =>
    by_cases hc : c = '\\'
    case pos | neg => simp [Text.replace, hc]

theorem windowsPath_head (cs : List Char) :
    (windowsPath cs).head? = some '-' ↔ cs.head? = some '-' := by
  rw [windowsPath.eq_def]
  split
  case h_1 drive sep path =>
    split
    case isTrue h =>
      have hd : drive ≠ '-' := by
        rintro rfl
        exact absurd h.1 (by decide)
      simp [head_replace, hd]
    case isFalse => exact head_replace _
  case h_2 => exact head_replace _

theorem shellPath_head (path : String) (shell : DirectoryShell) (windowsPosix : Bool) :
    (shellPath path shell windowsPosix).toList.head? = some '-' ↔ path.toList.head? = some '-' := by
  rw [shellPath]
  split
  case isTrue => rw [String.toList_ofList, windowsPath_head]
  case isFalse => rfl

theorem posix_change (operand : String) :
    directoryChange .posix ("cd '" ++ escapeQuotes operand ++ "'").toList =
      if operand.toList.head? ≠ some '-' then some operand.toList else none := by
  have hq : ("cd '" ++ escapeQuotes operand ++ "'").toList = "cd ".toList ++ quote operand.toList := by
    simp [escapeQuotes, quote]
  have hf : (Lexer.new.read "cd ".toList).AtWord := ⟨rfl, rfl⟩
  have ht : (Lexer.new.read "cd ".toList).level.tokens.mapM Token.literal? = some ["cd".toList] := rfl
  have hc : command? ("cd ".toList ++ quote operand.toList) = some ["cd".toList, operand.toList] := by
    simpa using command?_quotes [operand.toList] hf rfl ht
  rw [directoryChange, hq, hc, Option.bind_some, operand?]
  simp

end Posix

section PowerShell

open PowerShell

def quotes (cs : List Char) : Nat :=
  cs.countP isSingleQuote

-- Inside a literal quotes come in pairs, each of which leaves one, and a last one ends it.
theorem readLiteral_quotes (h : readLiteral cs = some (content, [])) :
    quotes cs = 2 * quotes content + 1 := by
  fun_induction readLiteral cs generalizing content
  case case1 => cases h
  case case2 c hc =>
    cases h
    simp [quotes, hc]
  case case3 c hc d ds hd ih =>
    obtain ⟨⟨content', rest⟩, hr, he⟩ := Option.map_eq_some_iff.mp h
    cases he
    have hi := ih hr
    simp only [quotes, countP_cons, hc, hd, if_true] at hi ⊢
    omega
  case case4 => cases h
  case case5 c cs hc ih =>
    obtain ⟨⟨content', rest⟩, hr, he⟩ := Option.map_eq_some_iff.mp h
    cases he
    have hi := ih hr
    simp only [quotes, countP_cons, hc] at hi ⊢
    exact hi

theorem readLiteral_rest (h : readLiteral cs = some (content, rest)) :
    ∃ front, cs = front ++ rest := by
  fun_induction readLiteral cs generalizing content
  case case1 => cases h
  case case2 c hc =>
    cases h
    exact ⟨[c], rfl⟩
  case case3 c hc d ds hd ih =>
    obtain ⟨⟨content', rest'⟩, hr, he⟩ := Option.map_eq_some_iff.mp h
    cases he
    obtain ⟨front, rfl⟩ := ih hr
    exact ⟨c :: d :: front, rfl⟩
  case case4 c hc d ds hd =>
    cases h
    exact ⟨[c], rfl⟩
  case case5 c cs hc ih =>
    obtain ⟨⟨content', rest'⟩, hr, he⟩ := Option.map_eq_some_iff.mp h
    cases he
    obtain ⟨front, rfl⟩ := ih hr
    exact ⟨c :: front, rfl⟩

def doubled (cs : List Char) : List Char :=
  Text.replace '\'' "''".toList cs

theorem readLiteral_doubled (h : ∀ c ∈ cs, isSingleQuote c → c = '\'') :
    readLiteral (doubled cs ++ ['\'']) = some (cs, []) := by
  induction cs
  case nil => rfl
  case cons c cs ih =>
    have hi := ih fun d hd => h d (mem_cons_of_mem _ hd)
    rw [doubled, Text.replace_cons, append_assoc]
    by_cases hc : c = '\''
    case pos =>
      subst hc
      change readLiteral ('\'' :: '\'' :: (doubled cs ++ ['\''])) = _
      rw [readLiteral, if_pos (by decide), if_pos (by decide), hi]
      rfl
    case neg =>
      have hn : ¬ isSingleQuote c := fun hq => hc (h c mem_cons_self hq)
      have hr : Text.replace '\'' "''".toList [c] = [c] := by simp [Text.replace, hc]
      rw [hr, singleton_append, readLiteral.eq_def]
      dsimp only
      rw [doubled] at hi
      rw [if_neg hn, hi]
      rfl

theorem quotes_doubled (cs : List Char) :
    quotes (doubled cs ++ ['\'']) = quotes cs + cs.count '\'' + 1 := by
  have hq : isSingleQuote '\'' = true := by decide
  induction cs
  case nil => decide
  case cons c cs ih =>
    rw [doubled, Text.replace_cons, append_assoc, quotes, countP_append]
    have hi : List.countP isSingleQuote (Text.replace '\'' "''".toList cs ++ ['\'']) = _ := ih
    rw [hi]
    by_cases hc : c = '\''
    case pos =>
      subst hc
      simp [Text.replace, quotes, hq]
      omega
    case neg =>
      simp [Text.replace, quotes, hc, countP_cons]
      omega

-- The quotes other than the plain one.
def isCurly (c : Char) : Bool :=
  isSingleQuote c ∧ c ≠ '\''

theorem quotes_eq (cs : List Char) : quotes cs = cs.count '\'' + cs.countP isCurly := by
  have hq : isSingleQuote '\'' = true := by decide
  induction cs
  case nil => rfl
  case cons c cs ih =>
    rw [quotes] at ih
    by_cases hc : c = '\''
    case pos =>
      subst hc
      simp only [quotes, countP_cons, count_cons, isCurly, hq, ih]
      simp
      omega
    case neg =>
      simp only [quotes, countP_cons, count_cons, isCurly, ih]
      simp [hc]
      omega

theorem readLiteral_iff (cs : List Char) :
    readLiteral (doubled cs ++ ['\'']) = some (cs, []) ↔ ∀ c ∈ cs, ¬ isCurly c := by
  constructor
  case mp =>
    intro h
    have hn := readLiteral_quotes h
    rw [quotes_doubled] at hn
    have hz : cs.countP isCurly = 0 := by
      have he := quotes_eq cs
      omega
    exact countP_eq_zero.mp hz
  case mpr =>
    intro h
    refine readLiteral_doubled fun c hc hq => ?_
    by_contra hne
    exact h c hc (by simp [isCurly, hq, hne])

theorem arguments_nil (h : arguments rounds cs = some []) : ∀ c ∈ cs, c = ' ' := by
  induction rounds generalizing cs
  case zero => cases h
  case succ rounds ih =>
    cases cs
    case nil => simp
    case cons c cs =>
      rw [arguments] at h
      split at h
      case isTrue hc =>
        intro d hd
        rcases mem_cons.mp hd with rfl | hd
        · exact hc
        · exact ih h d hd
      case isFalse =>
        split at h
        case isTrue =>
          split at h
          case h_1 => cases h
          case h_2 => simp at h
        case isFalse =>
          split at h
          case isTrue => simp at h
          case isFalse => cases h

-- What stands before the literal, up to its first quote.
def setLocation : List Char := "Set-Location -LiteralPath '".toList

theorem powerShell_arguments (rounds : Nat) (cs : List Char) :
    (arguments (rounds + 5) (setLocation ++ cs)).bind PowerShell.operand? =
      (readLiteral cs).bind fun read => (arguments rounds read.2).bind fun args =>
        if args = [] then some read.1 else none := by
  have hbare : arguments (rounds + 5) (setLocation ++ cs) =
      ((arguments (rounds + 1) ('\'' :: cs)).map (.bare "-LiteralPath".toList :: ·)).map
        (.bare "Set-Location".toList :: ·) := rfl
  have hop : ∀ content args, PowerShell.operand? (.bare "Set-Location".toList ::
      .bare "-LiteralPath".toList :: .literal content :: args) =
        if args = [] then some content else none := by
    intro content args
    cases args
    case nil | cons => rfl
  rw [hbare, arguments, if_neg (by decide), if_pos (by decide)]
  cases readLiteral cs
  case none => rfl
  case some read =>
    cases ha : arguments rounds read.2
    case none =>
      simp only [Option.bind_some, ha]
      rfl
    case some args =>
      simp only [Option.bind_some, ha, Option.map_some]
      exact hop read.1 args

theorem setLocation_toList (cs : List Char) :
    ("Set-Location -LiteralPath '" ++ String.ofList cs ++ "'").toList = setLocation ++ (cs ++ ['\'']) := by
  have hc := String.toList_ofList (l := cs)
  rw [String.toList_append, String.toList_append, append_assoc, hc]
  rfl

theorem powerShell_change (path : String) :
    directoryChange .powerShell
        ("Set-Location -LiteralPath '" ++ String.ofList (doubled path.toList) ++ "'").toList =
      some path.toList ↔ ∀ c ∈ path.toList, ¬ isCurly c := by
  rw [← readLiteral_iff, directoryChange, setLocation_toList]
  have hlast : (doubled path.toList ++ ['\'']).getLast? = some '\'' := getLast?_concat
  generalize doubled path.toList ++ ['\''] = cs at hlast
  have hn : (setLocation ++ cs).length + 1 = cs.length + 23 + 5 := by
    have h27 : setLocation.length = 27 := rfl
    rw [length_append, h27]
    omega
  rw [hn, powerShell_arguments]
  cases hr : readLiteral cs
  case none => exact ⟨nofun, nofun⟩
  case some read =>
    obtain ⟨content, rest⟩ := read
    obtain ⟨front, hf⟩ := readLiteral_rest hr
    -- Text that is left ends with a quote, so that it is an argument too or cannot be read.
    have harg : ((arguments (cs.length + 23) rest).bind fun args =>
        if args = [] then some content else none) = if rest = [] then some content else none := by
      by_cases hrest : rest = []
      case pos => simp [hrest, arguments]
      rw [if_neg hrest]
      cases ha : arguments (cs.length + 23) rest
      case none => rfl
      case some args =>
        rw [Option.bind_some]
        refine if_neg fun hargs => ?_
        rw [hargs] at ha
        rw [hf, getLast?_append_of_ne_nil _ hrest] at hlast
        have hq := arguments_nil ha _ (mem_of_getLast? hlast)
        exact absurd hq (by decide)
    rw [Option.bind_some, harg]
    by_cases hrest : rest = []
    case pos | neg => simp [hrest]

end PowerShell

section Cmd

theorem words_quoted (h : ∀ c ∈ cs, c ∉ ['"', '%', '!']) (word : List Char) :
    Cmd.words true (some word) (cs ++ ['"']) = some [word ++ cs] := by
  induction cs generalizing word
  case nil => simp [Cmd.words]
  case cons c cs ih =>
    have hc := h c mem_cons_self
    simp only [mem_cons, not_mem_nil, or_false, not_or] at hc
    rw [cons_append, Cmd.words, if_neg (by simp [hc]), if_neg hc.1, if_pos rfl]
    have hi := ih (fun d hd => h d (mem_cons_of_mem _ hd)) (word ++ [c])
    rwa [append_assoc, singleton_append] at hi

theorem cmd_change (h : path.toList.any (· ∈ ['"', '%', '!']) = false) :
    directoryChange .cmd ("cd /d \"" ++ path ++ "\"").toList = some path.toList := by
  have ht : ("cd /d \"" ++ path ++ "\"").toList = "cd /d ".toList ++ '"' :: (path.toList ++ ['"']) := by
    simp
  have hp : ∀ c ∈ path.toList, c ∉ ['"', '%', '!'] := by
    intro c hc
    simpa using any_eq_false.mp h c hc
  have hw : Cmd.words false none ("cd /d ".toList ++ '"' :: (path.toList ++ ['"'])) =
      ((Cmd.words true (some []) (path.toList ++ ['"'])).map (["/d".toList] ++ ·)).map
        (["cd".toList] ++ ·) := rfl
  rw [directoryChange, ht, hw, words_quoted hp]
  rfl

end Cmd

-- The paths that a shell is given literally.
def isLiteral (shell : DirectoryShell) (path : String) : Bool :=
  match shell with
  | .posix => path.toList.head? ≠ some '-'
  | .powerShell => path.toList.all (!isCurly ·)
  | .cmd => true

theorem directory_change_is_literal_iff {path command : String} {shell : DirectoryShell}
    {windowsPosix : Bool} (h : buildDirectoryChangeCommand path shell windowsPosix = some command) :
    directoryChange shell command.toList = some (shellPath path shell windowsPosix).toList ↔
      isLiteral shell path := by
  rw [buildDirectoryChangeCommand.eq_def] at h
  split at h
  case isTrue => cases h
  cases shell
  case powerShell =>
    obtain rfl := Option.some.inj h
    refine (powerShell_change path).trans ?_
    simp [isLiteral]
  case cmd =>
    dsimp only at h
    split at h
    case isTrue => cases h
    case isFalse hp =>
      obtain rfl := Option.some.inj h
      exact iff_of_true (cmd_change (Bool.eq_false_iff.mpr hp)) rfl
  case posix =>
    obtain rfl := Option.some.inj h
    have hh := shellPath_head path .posix windowsPosix
    rw [posix_change]
    by_cases hp : path.toList.head? = some '-'
    case pos => simp [hh.mpr hp, isLiteral, hp]
    case neg => simp [mt hh.mp hp, isLiteral, hp]

theorem directory_change_is_literal_iff_drive :
    buildDirectoryChangeCommand "C:\\My Files" .posix true = some "cd '/c/My Files'" ∧
    directoryChange .posix "cd '/c/My Files'".toList = some "/c/My Files".toList := by
  have hb : buildDirectoryChangeCommand "C:\\My Files" .posix true = some "cd '/c/My Files'" := by
    decide +kernel
  exact ⟨hb, (directory_change_is_literal_iff hb).mpr (by decide +kernel)⟩

-- The previous directory, and a literal that ends early: the rest is another statement.
theorem directory_change_is_not_literal :
    buildDirectoryChangeCommand "-" .posix false = some "cd '-'" ∧
    directoryChange .posix "cd '-'".toList = none ∧
    buildDirectoryChangeCommand "x’; calc #" .powerShell false =
      some "Set-Location -LiteralPath 'x’; calc #'" ∧
    PowerShell.readLiteral "x’; calc #'".toList = some (['x'], "; calc #'".toList) := by
  decide +kernel

end NyaTerm.Shell
