import NyaTerm.Sftp.Delete

namespace NyaTerm.Shell

open Posix

theorem shSingleQuote_toList (value : String) : (shSingleQuote value).toList = quote value.toList := by
  simp [shSingleQuote, escapeQuotes, quote]

theorem shellQuote_toList (value : String) : (shellQuote value).toList = quote value.toList := by
  rw [shellQuote]
  split
  case isTrue h =>
    subst h
    decide
  case isFalse => exact shSingleQuote_toList value

theorem shellQuotePath_toList (path : String) :
    (shellQuotePath path).toList = quote (protectPath path).toList := by
  rw [shellQuotePath, protectPath]
  split <;> rw [shellQuote_toList]

theorem protectPath_head (path : String) : (protectPath path).toList.head? ≠ some '-' := by
  rw [protectPath]
  split
  case isTrue => simp
  case isFalse h => exact h

-- Where a path leads: from the root or not, and along which names.
def resolve (path : List Char) : Bool × List (List Char) :=
  (path.head? = some '/', (path.splitOn '/').filter fun name => name ≠ [] ∧ name ≠ ['.'])

theorem resolve_protectPath (path : String) :
    resolve (protectPath path).toList = resolve path.toList := by
  rw [protectPath]
  split
  case isTrue h =>
    have hs : (['.', '/'] ++ path.toList).splitOn '/' = ['.'] :: path.toList.splitOn '/' := by
      simp [List.splitOn, List.splitOnP_cons_eq_if_modifyHead]
    rw [resolve, resolve, String.toList_append, show "./".toList = ['.', '/'] from rfl, hs, h]
    simp
  case isFalse => rfl

-- The ways in which a string is put in quotes.
inductive Quotes : (text value : String) → Prop
  | value (value : String) : Quotes (shellQuote value) value
  | single (value : String) : Quotes (shSingleQuote value) value
  | path (path : String) : Quotes (shellQuotePath path) (protectPath path)

theorem Quotes.toList {text value : String} (h : Quotes text value) :
    text.toList = quote value.toList := by
  cases h
  case value => exact shellQuote_toList value
  case single => exact shSingleQuote_toList value
  case path path => exact shellQuotePath_toList path

theorem Quotes.isWord {text value : String} (h : Quotes text value) :
    IsWord text.toList value.toList := by
  rw [h.toList]
  exact isWord_quote _

theorem command?_quoted {items : List (String × String)} (h : ∀ item ∈ items, Quotes item.1 item.2) :
    command? (" ".intercalate (items.map Prod.fst)).toList =
      some (items.map fun item => item.2.toList) := by
  have ht : (" ".intercalate (items.map Prod.fst)).toList =
      [' '].intercalate ((items.map fun item => item.2.toList).map quote) := by
    rw [String.toList_intercalate, List.map_map, List.map_map]
    refine congrArg _ (List.map_congr_left fun item hm => ?_)
    exact (h item hm).toList
  rw [ht]
  have h₀ : (Lexer.new.read []).AtWord := ⟨rfl, rfl⟩
  exact command?_quotes _ h₀ rfl rfl

theorem asBytes_of_fromUtf8 (h : Sftp.fromUtf8 bytes = some text) : Sftp.asBytes text = bytes := by
  rw [Sftp.fromUtf8, String.fromUTF8?] at h
  split at h
  case isTrue => cases h; rfl
  case isFalse => cases h

theorem command?_fastRemove
    (h : Sftp.fastRemoveCommand isUtf8 display raw = some command) :
    ∃ path, Sftp.asBytes path = Sftp.normalizePath (Sftp.asBytes display) ∧
      Sftp.asBytes path = Sftp.normalizePath raw ∧ command = "rm -rf -- " ++ shSingleQuote path ∧
      command? command.toList = some ["rm".toList, "-rf".toList, "--".toList, path.toList] := by
  rw [Sftp.fastRemoveCommand] at h
  split at h
  case isTrue => cases h
  case isFalse hcond =>
    obtain ⟨path, hd, rfl⟩ := Option.map_eq_some_iff.mp h
    have hb := asBytes_of_fromUtf8 hd
    have hraw : Sftp.normalizePath raw = Sftp.normalizePath (Sftp.asBytes display) := by
      simp at hcond
      exact hcond.1.2
    refine ⟨path, hb, hb.trans hraw.symm, rfl, ?_⟩
    rw [String.toList_append, shSingleQuote_toList]
    have hf : (Lexer.new.read "rm -rf -- ".toList).AtWord := ⟨rfl, rfl⟩
    have ht : (Lexer.new.read "rm -rf -- ".toList).level.tokens.mapM Token.literal? =
        some ["rm".toList, "-rf".toList, "--".toList] := rfl
    simpa using command?_quotes [path.toList] hf rfl ht

-- In every place in which a word may stand, but not between backquotes.
theorem quoting_is_exact :
    (∀ text value, Quotes text value → IsWord text.toList value.toList ∧
      Word.literal? (quoted value.toList) = some value.toList) ∧
    (∀ path, resolve (protectPath path).toList = resolve path.toList ∧
      (protectPath path).toList.head? ≠ some '-') ∧
    (∀ isUtf8 display raw command, Sftp.fastRemoveCommand isUtf8 display raw = some command →
      ∃ path operand, Sftp.asBytes path = Sftp.normalizePath (Sftp.asBytes display) ∧
        Sftp.asBytes path = Sftp.normalizePath raw ∧ command = "rm -rf -- " ++ operand ∧
        IsWord operand.toList path.toList ∧
        command? command.toList = some ["rm".toList, "-rf".toList, "--".toList, path.toList]) ∧
    ∀ items : List (String × String), (∀ item ∈ items, Quotes item.1 item.2) →
      command? (" ".intercalate (items.map Prod.fst)).toList =
        some (items.map fun item => item.2.toList) := by
  refine ⟨fun text value h => ⟨h.isWord, literal?_quoted _⟩,
    fun path => ⟨resolve_protectPath path, protectPath_head path⟩, ?_, fun items => command?_quoted⟩
  intro isUtf8 display raw command h
  obtain ⟨path, hd, hr, hc, hw⟩ := command?_fastRemove h
  exact ⟨path, shSingleQuote path, hd, hr, hc, (Quotes.single path).isWord, hw⟩

theorem quoting_is_exact_pair :
    command? "'it'\\''s' './-x'".toList = some ["it's".toList, "./-x".toList] ∧
    ∃ path operand, Sftp.asBytes path = [47, 97, 32, 98] ∧
      "rm -rf -- '/a b'" = "rm -rf -- " ++ operand ∧ IsWord operand.toList path.toList := by
  refine ⟨?_, ?_⟩
  · refine quoting_is_exact.2.2.2 [("'it'\\''s'", "it's"), ("'./-x'", "./-x")] ?_
    intro item hm
    simp only [List.mem_cons, List.not_mem_nil, or_false] at hm
    rcases hm with rfl | rfl
    · exact .value "it's"
    · exact .path "-x"
  · obtain ⟨path, operand, hd, -, hc, hw, _⟩ :=
      quoting_is_exact.2.2.1 true "/a b/" [47, 97, 32, 98] "rm -rf -- '/a b'" (by decide +kernel)
    exact ⟨path, operand, hd.trans (by decide +kernel), hc, hw⟩

-- Between backquotes, one of two backslashes is taken away first.
theorem quoting_is_not_exact_in_backquotes : ∃ program,
    (Lexer.new.read ("`echo " ++ shellQuote "\\\\" ++ "`").toList).level.word = some [.backquoted program] ∧
      command? program = some ["echo".toList, "\\".toList] :=
  ⟨_, rfl, by decide⟩

end NyaTerm.Shell
