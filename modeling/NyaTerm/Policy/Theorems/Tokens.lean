import NyaTerm.Policy.Shell

open List

namespace NyaTerm.Policy

section Lowercase

def lower (token : String) : String :=
  String.ofList (token.toList.map Char.toLower)

theorem toLower_cases (c : Char) : c.toLower = c ∨
    65 ≤ c.toNat ∧ c.toNat ≤ 90 ∧ c.toLower.toNat = c.toNat + 32 := by
  delta Char.toLower
  split
  case isTrue h =>
    have h₁ : 65 ≤ c.toNat := h.1
    have h₂ : c.toNat ≤ 90 := h.2
    refine .inr ⟨h₁, h₂, ?_⟩
    change (c.val + 32).toNat = c.val.toNat + 32
    have hc : c.val.toNat ≤ 90 := h₂
    rw [UInt32.toNat_add]
    change (c.val.toNat + 32) % 2 ^ 32 = c.val.toNat + 32
    omega
  case isFalse => exact .inl rfl

-- A character that is no letter is not affected, and does not come from a letter.
def isCaseless (d : Char) : Bool :=
  d.toNat < 65 ∨ 90 < d.toNat ∧ d.toNat < 97 ∨ 122 < d.toNat

theorem toLower_eq_iff (h : isCaseless d) : c.toLower = d ↔ c = d := by
  simp only [isCaseless, decide_eq_true_eq] at h
  rcases toLower_cases c with hc | ⟨h₁, h₂, hc⟩
  case inl => rw [hc]
  case inr =>
    constructor
    · rintro rfl
      omega
    · rintro rfl
      omega

theorem isWhitespace_toLower (c : Char) : Text.isWhitespace c.toLower = Text.isWhitespace c := by
  rcases toLower_cases c with hc | ⟨h₁, h₂, hc⟩
  case inl => rw [hc]
  case inr =>
    simp only [Text.isWhitespace, hc, mem_cons, not_mem_nil, or_false, decide_eq_decide]
    omega

theorem pushToken_lower (current : List Char) (tokens : List String) :
    pushToken (current.map Char.toLower) (tokens.map lower) = (pushToken current tokens).map lower := by
  cases current
  case nil => rfl
  case cons => simp [pushToken, lower]

theorem isDoubled_lower (h : isCaseless c) (cs : List Char) :
    isDoubled c (cs.map Char.toLower) = isDoubled c cs := by
  cases cs
  case nil => rfl
  case cons d cs => simp [isDoubled, toLower_eq_iff h]

theorem tokenizeShell_lower (current : List Char) (quote : Option Char) (mode : Mode)
    (cs : List Char) :
    tokenizeShell (current.map Char.toLower) quote mode (cs.map Char.toLower) =
      (tokenizeShell current quote mode cs).map lower := by
  have hs : ∀ c d : Char, isCaseless d → (c.toLower = d ↔ c = d) := fun _ _ => toLower_eq_iff
  have hl : ∀ c : Char, isCaseless c → c.toLower = c := fun c h => (toLower_eq_iff h).mpr rfl
  induction cs generalizing current quote mode
  case nil => cases mode <;> exact pushToken_lower _ []
  case cons c cs ih =>
    have happ : (current ++ [c]).map Char.toLower = current.map Char.toLower ++ [c.toLower] := by simp
    cases mode
    case escaped => simpa [tokenizeShell] using ih (current ++ [c]) quote .normal
    case taken => exact ih current quote .normal
    case normal =>
      rw [map_cons, tokenizeShell, tokenizeShell]
      simp only [hs c '\\' (by decide), hs c '\'' (by decide), hs c '"' (by decide),
        hs c '\n' (by decide), isWhitespace_toLower]
      split
      case isTrue => exact ih current quote .escaped
      split
      case isTrue hq =>
        rw [hl c (by rcases hq with rfl | rfl <;> decide)] at happ ⊢
        split
        case isTrue => exact ih current none .normal
        split
        case isTrue => exact ih current (some c) .normal
        rw [← happ]
        exact ih _ quote .normal
      case isFalse =>
        split
        case isTrue =>
          rw [← pushToken_lower, map_cons, ← ih]
          rfl
        case isFalse =>
          split
          case isTrue =>
            rw [← pushToken_lower, ← ih]
            rfl
          case isFalse =>
            have ho : c.toLower ∈ [';', '|', '&', '>'] ↔ c ∈ [';', '|', '&', '>'] := by
              simp only [mem_cons, not_mem_nil, or_false, hs c ';' (by decide),
                hs c '|' (by decide), hs c '&' (by decide), hs c '>' (by decide)]
            simp only [ho]
            split
            case isTrue hq =>
              have hcl : isCaseless c := by
                have hm := hq.2
                simp only [mem_cons, not_mem_nil, or_false] at hm
                rcases hm with rfl | rfl | rfl | rfl <;> decide
              rw [hl c hcl, isDoubled_lower hcl]
              split
              case isTrue | isFalse =>
                rw [← pushToken_lower, map_cons, ← ih]
                simp [lower, hl c hcl]
            case isFalse =>
              rw [← happ]
              exact ih _ quote .normal

end Lowercase

theorem unixLines_eq (h : '\r' ∉ cs) : unixLines cs = cs := by
  fun_induction unixLines cs
  case case1 => rfl
  case case2 => simp at h
  case case3 c cs _ ih =>
    simp only [mem_cons, not_or] at h
    rw [ih h.2, if_neg (Ne.symm h.1)]

namespace Shell

-- Parts that the tokenizer reads as the shell does.
def Quoted.isPlain : Quoted → Bool
  | .char c => c ≠ '\r'
  | .escaped c => c ∈ Quoted.special
  | _ => false

def Part.isPlain : Part → Bool
  | .plain c | .escaped c => !Text.isWhitespace c
  | .single cs => '\r' ∉ cs
  | .double parts => parts.all Quoted.isPlain
  | _ => false

-- The tokens that are taken for operators, even if they come from words in quotes.
def operators : List String := [";", "&", "&&", "||", "|", ">", ">>"]

def Word.isPlain (word : Word) : Bool :=
  word.all Part.isPlain ∧ Word.content word ≠ [] ∧ Word.value word ∉ operators

def Item.isPlain : Item → Bool
  | .word w => Word.isPlain w
  | .redirection _ => false
  | _ => true

theorem tokenize_inside (hc : c ≠ q) (hb : c = '\\' → q = '\'') :
    tokenizeShell current (some q) .normal (c :: rest) =
      tokenizeShell (current ++ [c]) (some q) .normal rest := by
  have hn : ¬ (c = '\\' ∧ some q ≠ some '\'') := fun h => h.2 (congrArg some (hb h.1))
  have hq : some q ≠ some c := fun h => hc (Option.some.inj h).symm
  rw [tokenizeShell, if_neg hn]
  simp [hq]

theorem tokenize_insides (hc : q ∉ cs) (hb : '\\' ∈ cs → q = '\'') :
    tokenizeShell current (some q) .normal (cs ++ rest) =
      tokenizeShell (current ++ cs) (some q) .normal rest := by
  induction cs generalizing current
  case nil => simp
  case cons c cs ih =>
    simp only [mem_cons, not_or] at hc hb
    rw [cons_append, tokenize_inside (Ne.symm hc.1) fun h => hb (.inl h.symm),
      ih hc.2 fun h => hb (.inr h), append_assoc, singleton_append]

theorem tokenize_open (hq : q = '\'' ∨ q = '"') :
    tokenizeShell current none .normal (q :: rest) = tokenizeShell current (some q) .normal rest := by
  rcases hq with rfl | rfl <;> simp [tokenizeShell]

theorem tokenize_close (hq : q = '\'' ∨ q = '"') :
    tokenizeShell current (some q) .normal (q :: rest) = tokenizeShell current none .normal rest := by
  rcases hq with rfl | rfl <;> simp [tokenizeShell]

theorem readable_char (h : Quoted.isReadable (.char c)) :
    c ≠ '$' ∧ c ≠ '`' ∧ c ≠ '"' ∧ c ≠ '\\' := by
  simpa [Quoted.isReadable, Quoted.special] using h

theorem tokenize_quoted {q : Quoted} (hr : q.isReadable) (hp : q.isPlain) :
    tokenizeShell current (some '"') .normal (q.text ++ rest) =
      tokenizeShell (current ++ q.content) (some '"') .normal rest := by
  cases q
  case char c =>
    replace hr := readable_char hr
    exact tokenize_inside hr.2.2.1 fun h => absurd h hr.2.2.2
  case escaped c =>
    simp only [Quoted.isPlain, decide_eq_true_eq] at hp
    simp [Quoted.text, Quoted.content, tokenizeShell, hp]
  case substitution | backquoted => cases hp

theorem tokenize_quoteds {parts : List Quoted} (hr : parts.all Quoted.isReadable)
    (hp : parts.all Quoted.isPlain) :
    tokenizeShell current (some '"') .normal (parts.flatMap Quoted.text ++ rest) =
      tokenizeShell (current ++ parts.flatMap Quoted.content) (some '"') .normal rest := by
  induction parts generalizing current
  case nil => simp
  case cons q parts ih =>
    rw [all_cons, Bool.and_eq_true] at hr hp
    rw [flatMap_cons, flatMap_cons, append_assoc, tokenize_quoted hr.1 hp.1,
      ih hr.2 hp.2, append_assoc]

variable {part : Part}

theorem tokenize_part (hr : part.isReadable) (hp : part.isPlain) :
    tokenizeShell current none .normal (part.text ++ rest) =
      tokenizeShell (current ++ part.content) none .normal rest := by
  cases part
  case plain c =>
    simp only [Part.isReadable, Part.special, mem_cons, not_mem_nil, or_false, not_or,
      decide_eq_true_eq] at hr
    simp only [Part.isPlain, Bool.not_eq_true'] at hp
    simp [Part.text, Part.content, tokenizeShell, hr, hp]
  case escaped c => simp [Part.text, Part.content, tokenizeShell]
  case single cs =>
    simp only [Part.isReadable, decide_eq_true_eq] at hr
    rw [Part.text, append_assoc, append_assoc, singleton_append,
      tokenize_open (.inl rfl), tokenize_insides hr fun _ => rfl, singleton_append,
      tokenize_close (.inl rfl)]
    rfl
  case double parts =>
    rw [Part.text, append_assoc, append_assoc, singleton_append,
      tokenize_open (.inr rfl), tokenize_quoteds hr hp, singleton_append,
      tokenize_close (.inr rfl)]
    rfl
  case substitution | backquoted | process => cases hp

theorem tokenize_word (hr : word.all Part.isReadable) (hp : word.all Part.isPlain) :
    tokenizeShell current none .normal (Word.text word ++ rest) =
      tokenizeShell (current ++ Word.content word) none .normal rest := by
  induction word generalizing current
  case nil => simp [Word.text, Word.content]
  case cons part word ih =>
    rw [all_cons, Bool.and_eq_true] at hr hp
    rw [Word.text, flatMap_cons, append_assoc, tokenize_part hr.1 hp.1]
    rw [Word.content, flatMap_cons, ← append_assoc]
    exact ih hr.2 hp.2

-- The tokens of an item.
def Item.tokens : Item → List String
  | .blank _ => []
  | .word w => [Word.value w]
  | .operator .newline => [";"]
  | .operator o => [String.ofList o.text]
  | .redirection sign => [String.ofList sign]

theorem tokenize_blank (h : Item.isReadable (.blank c)) :
    tokenizeShell current none .normal (c :: rest) =
      pushToken current (tokenizeShell [] none .normal rest) := by
  simp only [Item.isReadable, mem_cons, not_mem_nil, or_false, decide_eq_true_eq] at h
  rcases h with rfl | rfl <;> simp [tokenizeShell, Text.isWhitespace]

theorem tokenize_operator (h : rest.head? ≠ o.text.getLast? ∨ o ≠ .ampersand ∧ o ≠ .pipe) :
    tokenizeShell current none .normal (o.text ++ rest) =
      pushToken current (Item.tokens (.operator o) ++ tokenizeShell [] none .normal rest) := by
  cases o
  all_goals simp_all [Operator.text, Item.tokens, tokenizeShell, isDoubled, Text.isWhitespace]

-- The characters that end a word. Those of redirections do not, since `<(` belongs to a word.
def stops : List Char := [' ', '\t', '\n', ';', '&', '|']

theorem head_part (hr : part.isReadable) : ∃ c cs, part.text = c :: cs ∧ c ∉ stops := by
  cases part
  case plain c =>
    simp only [Part.isReadable, Part.special, mem_cons, not_mem_nil, or_false, not_or,
      decide_eq_true_eq] at hr
    exact ⟨c, _, rfl, by simp [stops, hr]⟩
  case process sign text =>
    simp only [Part.isReadable, mem_cons, not_mem_nil, or_false, decide_eq_true_eq] at hr
    exact ⟨sign, _, rfl, by rcases hr with rfl | rfl <;> decide⟩
  all_goals exact ⟨_, _, rfl, by decide⟩

theorem head_of_parts {P : Char → Prop} (hr : Word.isReadable w)
    (h : ∀ part ∈ w, part.isReadable → ∃ c cs, part.text = c :: cs ∧ P c) :
    ∃ c cs, Word.text w = c :: cs ∧ P c := by
  simp only [Word.isReadable, decide_eq_true_eq] at hr
  cases w
  case nil => exact absurd rfl hr.1
  case cons part w =>
    rw [all_cons, Bool.and_eq_true] at hr
    obtain ⟨c, cs, he, hc⟩ := h part (.head _) hr.2.2.1
    refine ⟨c, cs ++ Word.text w, ?_, hc⟩
    rw [Word.text, flatMap_cons, he]
    rfl

theorem head_word (hr : Word.isReadable w) :
    ∃ c cs, Word.text w = c :: cs ∧ c ∉ stops :=
  head_of_parts hr fun _ _ => head_part

theorem plain_head_part (hr : part.isReadable) (hp : part.isPlain) :
    ∃ c cs, part.text = c :: cs ∧ c ∉ stops ∧ c ∉ ['<', '>'] ∧ ¬ Text.isWhitespace c := by
  cases part
  case plain c =>
    simp only [Part.isReadable, Part.special, mem_cons, not_mem_nil, or_false, not_or,
      decide_eq_true_eq] at hr
    refine ⟨c, _, rfl, by simp [stops, hr], by simp [hr], ?_⟩
    simpa [Part.isPlain] using hp
  case substitution | backquoted | process => cases hp
  all_goals exact ⟨_, _, rfl, by decide, by decide, by decide⟩

theorem plain_head_word (hr : Word.isReadable w) (hp : Word.isPlain w) :
    ∃ c cs, Word.text w = c :: cs ∧ c ∉ stops ∧ c ∉ ['<', '>'] ∧ ¬ Text.isWhitespace c := by
  simp only [Word.isPlain, decide_eq_true_eq] at hp
  exact head_of_parts hr fun part hm hr => plain_head_part hr (all_eq_true.mp hp.1 part hm)

theorem head_fits (ho : o = .ampersand ∨ o = .pipe) (hr : Script.Readable (.operator o :: script)) :
    (Script.text script).head? ≠ o.text.getLast? := by
  cases script
  case nil => rcases ho with rfl | rfl <;> simp [Script.text, Operator.text]
  case cons item script =>
    have hf : Item.Fits (.operator o) item := hr.fits.rel
    have hi := hr.items item (by simp)
    cases item
    case blank c =>
      simp only [Item.isReadable, mem_cons, not_mem_nil, or_false, decide_eq_true_eq] at hi
      rcases ho with rfl | rfl <;> rcases hi with rfl | rfl <;>
        simp [Script.text, Item.text, Operator.text]
    case word w =>
      obtain ⟨c, cs, he, hc⟩ := head_word hi
      rcases ho with rfl | rfl <;> simp_all [Script.text, Item.text, Operator.text, stops]
    case operator o' =>
      rcases ho with rfl | rfl <;> cases o' <;>
        simp_all [Script.text, Item.text, Operator.text, Item.Fits]
    case redirection sign =>
      simp only [Item.isReadable, decide_eq_true_eq] at hi
      rcases ho with rfl | rfl <;> rcases hi with rfl | rfl | rfl <;>
        simp [Script.text, Item.text, Operator.text]

theorem Script.Readable.tail (h : Script.Readable (item :: script)) : Script.Readable script :=
  ⟨fun i hi => h.items i (mem_cons_of_mem _ hi), h.fits.tail⟩

-- Between items, there is no token that is still open, unless a word was just read.
theorem tokenize_script (hr : Script.Readable script)
    (hp : script.all Item.isPlain)
    (hc : current = [] ∨ ∀ item ∈ script.head?, ∀ w, item ≠ .word w) :
    tokenizeShell current none .normal (Script.text script) =
      pushToken current (script.flatMap Item.tokens) := by
  induction script generalizing current
  case nil => rfl
  case cons item script ih =>
    have hpc := hp
    rw [all_cons, Bool.and_eq_true] at hp
    have hi := hr.items item (by simp)
    rw [Script.text, flatMap_cons, flatMap_cons]
    cases item
    case blank c =>
      rw [Item.text, singleton_append, tokenize_blank hi]
      exact congrArg _ (ih hr.tail hp.2 (.inl rfl))
    case word w =>
      have hcur : current = [] := hc.resolve_right fun h => h _ rfl w rfl
      have hw := hp.1
      simp only [Item.isPlain, Word.isPlain, decide_eq_true_eq] at hw
      simp only [Item.isReadable, Word.isReadable, decide_eq_true_eq] at hi
      have hn : ∀ item ∈ script.head?, ∀ v, item ≠ .word v := by
        rintro _ hm v rfl
        cases script
        case nil => cases hm
        case cons next script =>
          cases hm
          exact hr.fits.rel
      rw [hcur, Item.text, tokenize_word hi.2.2 hw.1]
      refine (ih hr.tail hp.2 (.inr hn)).trans ?_
      simp [pushToken, Item.tokens, Word.value, hw.2.1]
    case operator o =>
      rw [Item.text, tokenize_operator]
      · exact congrArg (fun tokens => pushToken current (_ ++ tokens)) (ih hr.tail hp.2 (.inl rfl))
      · by_cases ho : o = .ampersand ∨ o = .pipe
        case pos => exact .inl (head_fits ho hr)
        case neg => exact .inr (not_or.mp ho)
    case redirection => cases hp.1

theorem lower_eq_iff (h : other.toList.all isCaseless) : lower token = other ↔ token = other := by
  have hm : ∀ cs ds : List Char, ds.all isCaseless → (cs.map Char.toLower = ds ↔ cs = ds) := by
    intro cs
    induction cs
    case nil => simp
    case cons c cs ih =>
      intro ds hd
      cases ds
      case nil => simp
      case cons d ds =>
        rw [all_cons, Bool.and_eq_true] at hd
        simp [toLower_eq_iff hd.1, ih ds hd.2]
  rw [lower, ← String.toList_inj, String.toList_ofList, hm _ _ h, String.toList_inj]

theorem lower_mem_iff {tokens : List String}
    (h : tokens.all fun other => other.toList.all isCaseless) :
    lower token ∈ tokens ↔ token ∈ tokens := by
  induction tokens
  case nil => simp
  case cons other tokens ih =>
    rw [all_cons, Bool.and_eq_true] at h
    simp [lower_eq_iff h.1, ih h.2]

-- The tokens of a word in lower case.
def lowered (w : Word) : String :=
  lower (Word.value w)

theorem separator_word (h : Word.isPlain w) :
    isSeparator (lowered w) = false ∧ isRedirection (lowered w) = false := by
  simp only [Word.isPlain, decide_eq_true_eq] at h
  have hn : ∀ tokens : List String, (tokens.all fun other => other.toList.all isCaseless) →
      tokens ⊆ operators → lowered w ∉ tokens := by
    intro tokens hc hs hm
    exact h.2.2 (hs ((lower_mem_iff hc).mp hm))
  simp only [isSeparator, isRedirection, decide_eq_false_iff_not]
  exact ⟨hn _ (by decide) (by decide), hn _ (by decide) (by decide)⟩

theorem commandStages_tokens (hp : script.all Item.isPlain) (words : List Word) :
    commandStages ((script.flatMap Item.tokens).map lower) (words.map lowered) =
      ((Script.commands script false words).filter (· ≠ [])).map (List.map lowered) := by
  induction script generalizing words
  case nil =>
    cases words
    case nil => rfl
    case cons w words => simp [commandStages, Script.commands]
  case cons item script ih =>
    rw [all_cons, Bool.and_eq_true] at hp
    rw [flatMap_cons, map_append]
    cases item
    case blank => exact ih hp.2 words
    case word w =>
      obtain ⟨hs, hr⟩ := separator_word hp.1
      have hi := ih hp.2 (words ++ [w])
      rw [map_append] at hi
      have ht : (Item.word w).tokens.map lower = [lowered w] := rfl
      rw [ht, singleton_append, commandStages, if_neg (by simp [hs]), if_neg (by simp [hr])]
      exact hi
    case operator o =>
      have ho : ∃ token, (Item.operator o).tokens.map lower = [token] ∧ isSeparator token := by
        cases o <;> exact ⟨_, rfl, by decide⟩
      obtain ⟨token, he, hs⟩ := ho
      rw [he, singleton_append, commandStages, if_pos hs]
      have hi := ih hp.2 []
      cases words
      case nil | cons w words => simpa [Script.commands] using hi
    case redirection => cases hp.1

-- Items that are trimmed at the ends of a text.
def Item.isSpace : Item → Bool
  | .blank _ | .operator .newline => true
  | _ => false

theorem last_part (hr : part.isReadable) (hp : part.isPlain) :
    ∃ c ∈ part.text.getLast?, ¬ Text.isWhitespace c := by
  cases part
  case plain c | escaped c => exact ⟨c, rfl, by simpa [Part.isPlain] using hp⟩
  case single cs => exact ⟨'\'', getLast?_concat, by decide⟩
  case double parts => exact ⟨'"', getLast?_concat, by decide⟩
  case substitution | backquoted | process => cases hp

theorem last_word (hr : Word.isReadable w) (hp : Word.isPlain w) :
    ∃ c ∈ (Word.text w).getLast?, ¬ Text.isWhitespace c := by
  simp only [Word.isReadable, decide_eq_true_eq] at hr
  simp only [Word.isPlain, decide_eq_true_eq] at hp
  obtain ⟨w, part, rfl⟩ := (eq_nil_or_concat w).resolve_left hr.1
  rw [concat_eq_append, all_append, Bool.and_eq_true, all_cons,
    Bool.and_eq_true] at hr hp
  obtain ⟨c, hc, hw⟩ := last_part hr.2.2.2.1 hp.1.2.1
  refine ⟨c, ?_, hw⟩
  rw [Word.text, concat_eq_append, flatMap_append, flatMap_singleton,
    getLast?_append, Option.mem_def.mp hc]
  rfl

theorem return_quoted {q : Quoted} (h : q.isPlain) : '\r' ∉ q.text := by
  cases q
  case char c =>
    simp only [Quoted.isPlain, decide_eq_true_eq] at h
    rw [Quoted.text, mem_singleton]
    exact Ne.symm h
  case escaped c =>
    intro hm
    rw [Quoted.text, mem_pair] at hm
    rcases hm with hm | hm
    · exact absurd hm (by decide)
    · exact absurd (hm ▸ h) (by decide)
  case substitution | backquoted => cases h

theorem return_part (h : part.isPlain) : '\r' ∉ part.text := by
  have hw : ∀ c : Char, (!Text.isWhitespace c) = true → '\r' ≠ c := by
    rintro _ hc rfl
    exact absurd hc (by decide)
  cases part
  case plain c | escaped c => simpa [Part.text] using hw c h
  case single cs => simpa [Part.text, Part.isPlain] using h
  case double parts =>
    simp only [Part.isPlain, all_eq_true] at h
    simp only [Part.text, mem_append, mem_singleton, mem_flatMap, not_or, not_exists,
      not_and]
    exact ⟨⟨by decide, fun q hq => return_quoted (h q hq)⟩, by decide⟩
  case substitution | backquoted | process => cases h

section Trim

variable (hr : Script.Readable script) (hp : script.all Item.isPlain)

include hr hp

theorem trim_text : Text.trim (Script.text script) =
    Script.text ((script.dropWhile Item.isSpace).reverse.dropWhile Item.isSpace).reverse := by
  rw [all_eq_true] at hp
  refine Text.trim_flatMap ?_ ?_ ?_
  all_goals
    intro item hm hs
    have hi := hr.items item hm
    have hpl := hp item hm
    cases item
    case redirection => cases hpl
  case refine_1.blank c =>
    simp only [Item.isReadable, mem_cons, not_mem_nil, or_false, decide_eq_true_eq] at hi
    rcases hi with rfl | rfl <;> simp [Item.text] <;> decide
  case refine_1.word => cases hs
  case refine_1.operator o => cases o <;> first | (cases hs; done) | (simp [Item.text, Operator.text]; decide)
  case refine_2.blank | refine_3.blank => exact absurd rfl hs
  case refine_2.word w =>
    obtain ⟨c, cs, he, _, _, hw⟩ := plain_head_word hi hpl
    exact ⟨c, by simp [Item.text, he], hw⟩
  case refine_3.word w => exact last_word hi hpl
  case refine_2.operator o | refine_3.operator o =>
    cases o <;> first | exact absurd rfl hs | exact ⟨_, rfl, by decide⟩

theorem no_return : '\r' ∉ Script.text script := by
  rw [all_eq_true] at hp
  simp only [Script.text, mem_flatMap, not_exists, not_and]
  intro item hm
  have hpl := hp item hm
  have hi := hr.items item hm
  cases item
  case blank c =>
    intro hc
    rw [Item.text, mem_singleton] at hc
    rw [← hc] at hi
    exact absurd hi (by decide)
  case word w =>
    simp only [Item.isPlain, Word.isPlain, decide_eq_true_eq, all_eq_true] at hpl
    simp only [Item.text, Word.text, mem_flatMap, not_exists, not_and]
    exact fun part hpart => return_part (hpl.1 part hpart)
  case operator o => cases o <;> decide
  case redirection => cases hpl

end Trim

theorem commands_space_front (h : ∀ item ∈ front, item.isSpace) :
    (Script.commands (front ++ script) false []).filter (· ≠ []) =
      (Script.commands script false []).filter (· ≠ []) := by
  induction front
  case nil => rfl
  case cons item front ih =>
    have hi := ih fun i hm => h i (mem_cons_of_mem _ hm)
    have hs := h item mem_cons_self
    cases item
    case blank => exact hi
    case operator o =>
      exact hi
    case word | redirection => cases hs

theorem commands_space (h : ∀ item ∈ back, item.isSpace) (file : Bool) (words : List Word) :
    (Script.commands back file words).filter (· ≠ []) = [words].filter (· ≠ []) := by
  induction back generalizing file words
  case nil => rfl
  case cons item back ih =>
    have hi := ih fun i hm => h i (mem_cons_of_mem _ hm)
    have hs := h item mem_cons_self
    cases item
    case blank => exact hi file words
    case operator o =>
      rw [Script.commands, filter_cons, hi false []]
      by_cases hw : words = [] <;> simp [hw]
    case word | redirection => cases hs

theorem commands_space_back (h : ∀ item ∈ back, item.isSpace) (file : Bool) (words : List Word) :
    (Script.commands (script ++ back) file words).filter (· ≠ []) =
      (Script.commands script file words).filter (· ≠ []) := by
  induction script generalizing file words
  case nil => exact commands_space h file words
  case cons item script ih =>
    cases item
    case blank => exact ih file words
    case redirection => exact ih true words
    case operator o =>
      rw [cons_append, Script.commands, Script.commands, filter_cons, filter_cons,
        ih false []]
    case word w =>
      cases file
      case false => exact ih false (words ++ [w])
      case true => exact ih false words

theorem stages_eq (hr : Script.Readable script) (hp : script.all Item.isPlain) :
    commandStages (tokensOf (String.ofList (Script.text script))) [] =
      ((Script.commands script false []).filter (· ≠ [])).map (List.map lowered) := by
  obtain ⟨front, back, he, hf, hb⟩ := Text.trimmed_split Item.isSpace script
  have ht := trim_text hr hp
  generalize ((script.dropWhile Item.isSpace).reverse.dropWhile Item.isSpace).reverse = trimmed
    at he ht
  have hsub : trimmed ⊆ script := by
    rw [he]
    exact fun item hm => mem_append_left _ (mem_append_right _ hm)
  have hr' : Script.Readable trimmed := by
    refine ⟨fun item hm => hr.items item (hsub hm), ?_⟩
    have hc := hr.fits
    rw [he] at hc
    exact hc.left_of_append.right_of_append
  have hp' : trimmed.all Item.isPlain :=
    all_eq_true.mpr fun item hm => all_eq_true.mp hp item (hsub hm)
  have hn : normalized (String.ofList (Script.text script)) = Script.text trimmed := by
    rw [normalized, String.toList_ofList, ht, unixLines_eq (no_return hr' hp')]
  have hl := tokenizeShell_lower [] none .normal (Script.text trimmed)
  rw [tokenize_script hr' hp' (.inl rfl)] at hl
  rw [tokensOf, hn]
  refine (congrArg (commandStages · []) hl).trans ?_
  refine (commandStages_tokens hp' []).trans ?_
  rw [← commands_space_front hf, ← commands_space_back hb, ← he]

theorem classified_of_auto (h : (assessCommandRisk command).autoExecutable) :
    ∀ stage ∈ commandStages (tokensOf command) [], classifyStage stage ≠ .unknown := by
  intro stage hm hu
  simp only [assessCommandRisk, assessStages] at h
  have ha : (commandStages (tokensOf command) []).any (classifyStage · = .unknown) :=
    any_eq_true.mpr ⟨stage, hm, by simpa using hu⟩
  repeat' split at h
  all_goals cases h

end Shell

end NyaTerm.Policy
