import NyaTerm.Policy.Theorems.Tokens

open List

namespace NyaTerm.Policy.Shell

open Script

section Reading

theorem quote_unique (h : q ∉ cs) (h' : q ∉ cs') (he : cs ++ q :: rest = cs' ++ q :: rest') :
    cs = cs' ∧ rest = rest' := by
  induction cs generalizing cs'
  case nil =>
    cases cs'
    case nil => exact ⟨rfl, (cons.inj he).2⟩
    case cons c cs' => exact absurd (cons.inj he).1 fun hc => h' (hc ▸ mem_cons_self)
  case cons c cs ih =>
    cases cs'
    case nil => exact absurd (cons.inj he).1 fun hc => h (hc ▸ mem_cons_self)
    case cons c' cs' =>
      simp only [mem_cons, not_or] at h h'
      obtain ⟨rfl, ht⟩ := cons.inj he
      obtain ⟨rfl, hu⟩ := ih h.2 h'.2 ht
      exact ⟨rfl, hu⟩

theorem quoted_unique {q : Quoted} (hr : q.isReadable) (hp : q.isPlain) (hr' : q'.isReadable)
    (he : q.text ++ rest = q'.text ++ rest') : q = q' ∧ rest = rest' := by
  cases q
  case char c =>
    replace hr := readable_char hr
    cases q' <;> simp_all [Quoted.text]
  case escaped c =>
    cases q'
    case char c' =>
      replace hr' := readable_char hr'
      exact absurd (cons.inj he).1.symm hr'.2.2.2
    all_goals simp_all [Quoted.text]
  case substitution | backquoted => cases hp

theorem quoteds_unique {parts : List Quoted} (hr : parts.all Quoted.isReadable)
    (hp : parts.all Quoted.isPlain) (hr' : parts'.all Quoted.isReadable)
    (he : parts.flatMap Quoted.text ++ '"' :: rest = parts'.flatMap Quoted.text ++ '"' :: rest') :
    parts = parts' ∧ rest = rest' := by
  have hn : ∀ q : Quoted, q.isReadable → ∀ cs ds, q.text ++ cs ≠ '"' :: ds := by
    intro q hq cs ds
    cases q
    case char c =>
      replace hq := readable_char hq
      simp [Quoted.text, hq]
    all_goals simp [Quoted.text]
  induction parts generalizing parts'
  case nil =>
    cases parts'
    case nil => exact ⟨rfl, (cons.inj he).2⟩
    case cons q' parts' =>
      rw [all_cons, Bool.and_eq_true] at hr'
      rw [flatMap_cons, append_assoc] at he
      exact absurd he.symm (hn q' hr'.1 _ _)
  case cons q parts ih =>
    rw [all_cons, Bool.and_eq_true] at hr hp
    rw [flatMap_cons, append_assoc] at he
    cases parts'
    case nil => exact absurd he (hn q hr.1 _ _)
    case cons q' parts' =>
      rw [all_cons, Bool.and_eq_true] at hr'
      rw [flatMap_cons, append_assoc] at he
      obtain ⟨rfl, ht⟩ := quoted_unique hr.1 hp.1 hr'.1 he
      obtain ⟨rfl, hu⟩ := ih hr.2 hp.2 hr'.2 ht
      exact ⟨rfl, hu⟩

theorem part_unique {part : Part} (hr : part.isReadable) (hp : part.isPlain)
    (hr' : part'.isReadable) (he : part.text ++ rest = part'.text ++ rest') :
    part = part' ∧ rest = rest' := by
  -- The first character decides, since only that of a plain character is not special.
  have hs : ∀ c : Char, Part.isReadable (.plain c) → ∀ part : Part, part.isReadable →
      (∀ d, part ≠ .plain d) → ∀ cs ds, c :: cs ≠ part.text ++ ds := by
    intro c hc part hpart hd cs ds
    simp only [Part.isReadable, Part.special, mem_cons, not_mem_nil, or_false, not_or,
      decide_eq_true_eq] at hc
    cases part
    case plain d => exact absurd rfl (hd d)
    case process sign text =>
      simp only [Part.isReadable, mem_cons, not_mem_nil, or_false, decide_eq_true_eq] at hpart
      rcases hpart with rfl | rfl <;> simp [Part.text, hc]
    all_goals simp [Part.text, hc]
  by_cases hc : ∃ c, part = .plain c
  case pos =>
    obtain ⟨c, rfl⟩ := hc
    by_cases hc' : ∃ c, part' = .plain c
    case pos =>
      obtain ⟨c', rfl⟩ := hc'
      obtain ⟨rfl, ht⟩ := cons.inj he
      exact ⟨rfl, ht⟩
    case neg => exact absurd he (hs c hr part' hr' (not_exists.mp hc') _ _)
  case neg =>
    cases part'
    case plain c' => exact absurd he.symm (hs c' hr' part hr (not_exists.mp hc) _ _)
    case process sign text =>
      simp only [Part.isReadable, mem_cons, not_mem_nil, or_false, decide_eq_true_eq] at hr'
      rcases hr' with rfl | rfl <;> cases part <;> simp_all [Part.text, Part.isPlain]
    all_goals cases part
    case escaped.escaped c' c =>
      obtain ⟨rfl, ht⟩ := cons.inj (cons.inj he).2
      exact ⟨rfl, ht⟩
    case single.single cs' cs =>
      simp only [Part.isReadable, decide_eq_true_eq] at hr hr'
      simp only [Part.text, cons_append, append_assoc] at he
      obtain ⟨rfl, ht⟩ := quote_unique hr hr' (cons.inj he).2
      exact ⟨rfl, ht⟩
    case double.double parts' parts =>
      simp only [Part.text, cons_append, append_assoc] at he
      obtain ⟨rfl, ht⟩ := quoteds_unique hr hp hr' (cons.inj he).2
      exact ⟨rfl, ht⟩
    all_goals first | exact absurd hp Bool.false_ne_true | (simp [Part.text] at he; done) | skip
    all_goals exact absurd ⟨_, rfl⟩ hc

theorem word_unique (hr : w.all Part.isReadable) (hp : w.all Part.isPlain)
    (hr' : w'.all Part.isReadable) (hs : ∀ c ∈ rest.head?, c ∈ stops)
    (hs' : ∀ c ∈ rest'.head?, c ∈ stops ∨ c ∈ ['<', '>'])
    (he : Word.text w ++ rest = Word.text w' ++ rest') : w = w' ∧ rest = rest' := by
  induction w generalizing w'
  case nil =>
    cases w'
    case nil => exact ⟨rfl, he⟩
    case cons part' w' =>
      rw [all_cons, Bool.and_eq_true] at hr'
      obtain ⟨c, cs, ht, hc⟩ := head_part hr'.1
      have hh : rest = c :: (cs ++ Word.text w' ++ rest') := by
        simpa [Word.text, ht] using he
      exact absurd (hs c (by simp [hh])) hc
  case cons part w ih =>
    rw [all_cons, Bool.and_eq_true] at hr hp
    cases w'
    case nil =>
      obtain ⟨c, cs, ht, hc, hd, _⟩ := plain_head_part hr.1 hp.1
      have hh : c :: (cs ++ Word.text w ++ rest) = rest' := by
        simpa [Word.text, ht] using he
      exact absurd (hs' c (by simp [← hh])) (not_or.mpr ⟨hc, hd⟩)
    case cons part' w' =>
      rw [all_cons, Bool.and_eq_true] at hr'
      rw [Word.text, Word.text, flatMap_cons, flatMap_cons, append_assoc,
        append_assoc] at he
      obtain ⟨rfl, ht⟩ := part_unique hr.1 hp.1 hr'.1 he
      obtain ⟨rfl, hu⟩ := ih hr.2 hp.2 hr'.2 ht
      exact ⟨rfl, hu⟩

-- The characters that an item may start with.
def Item.heads : Item → Char → Bool
  | .blank _, c => c ∈ [' ', '\t']
  | .word _, c => c ∉ stops
  | .operator _, c => c ∈ ['\n', ';', '&', '|']
  | .redirection _, c => c ∈ ['<', '>']

theorem head_item {item : Item} (h : item.isReadable) :
    ∃ c cs, item.text = c :: cs ∧ item.heads c := by
  cases item
  case blank c => exact ⟨c, [], rfl, h⟩
  case word w =>
    obtain ⟨c, cs, he, hc⟩ := head_word h
    exact ⟨c, cs, he, by simpa [Item.heads] using hc⟩
  case operator o => cases o <;> exact ⟨_, _, rfl, by decide⟩
  case redirection sign =>
    simp only [Item.isReadable, decide_eq_true_eq] at h
    rcases h with rfl | rfl | rfl <;> exact ⟨_, _, rfl, by decide⟩

section

variable (h : Script.Readable (.word w :: script))
include h

theorem exists_heads
    (hc : c ∈ (text script).head?) : ∃ item ∈ script, item.heads c ∧ Item.Fits (.word w) item := by
  cases script
  case nil => cases hc
  case cons item script =>
    obtain ⟨d, cs, he, hd⟩ := head_item (h.items item (by simp))
    obtain rfl : d = c := by simpa [text, he] using hc
    exact ⟨item, .head _, hd, h.fits.rel⟩

theorem head_after :
    ∀ c ∈ (text script).head?, c ∈ stops ∨ c ∈ ['<', '>'] := by
  intro c hc
  obtain ⟨item, -, hd, hf⟩ := exists_heads h hc
  cases item
  case word => exact hf.elim
  case redirection => exact .inr (by simpa [Item.heads] using hd)
  all_goals
    refine .inl ?_
    simp only [Item.heads, stops, mem_cons, not_mem_nil, or_false, decide_eq_true_eq] at hd ⊢
    tauto

theorem plain_head_after
    (hp : script.all Item.isPlain) : ∀ c ∈ (text script).head?, c ∈ stops := by
  intro c hc
  refine (head_after h c hc).resolve_right fun hr => ?_
  obtain ⟨item, hi, hd, hf⟩ := exists_heads h hc
  have hi := all_eq_true.mp hp item hi
  cases item
  case word => exact hf.elim
  case redirection => cases hi
  all_goals
    simp only [Item.heads, mem_cons, not_mem_nil, or_false, decide_eq_true_eq] at hd hr
    rcases hr with rfl | rfl <;> simp at hd

end

theorem operator_unique (h : Script.Readable (.operator o :: script))
    (h' : Script.Readable (.operator o' :: script'))
    (he : o.text ++ text script = o'.text ++ text script') :
    o = o' ∧ text script = text script' := by
  have hd : ∀ {o : Operator} {script : Script}, o = .ampersand ∨ o = .pipe →
      Script.Readable (.operator o :: script) → ∀ c ∈ o.text, ∀ cs, text script ≠ c :: cs := by
    intro o script ho h c hc cs ht
    refine head_fits ho h ?_
    rcases ho with rfl | rfl <;> simp_all [Operator.text]
  cases o <;> cases o'
  case ampersand.and => exact absurd (cons.inj he).2 (hd (.inl rfl) h '&' (by decide) _)
  case and.ampersand => exact absurd (cons.inj he).2.symm (hd (.inl rfl) h' '&' (by decide) _)
  case pipe.or => exact absurd (cons.inj he).2 (hd (.inr rfl) h '|' (by decide) _)
  case or.pipe => exact absurd (cons.inj he).2.symm (hd (.inr rfl) h' '|' (by decide) _)
  all_goals simp only [Operator.text, cons_append, nil_append, List.cons.injEq] at he
  all_goals first | exact ⟨rfl, he.2⟩ | exact ⟨rfl, he.2.2⟩ | exact absurd he.1 (by decide)

theorem script_unique (hr : Script.Readable script) (hp : script.all Item.isPlain)
    (hr' : Script.Readable script') (he : text script = text script') : script = script' := by
  induction script generalizing script'
  case nil =>
    cases script'
    case nil => rfl
    case cons item' script' =>
      obtain ⟨c, cs, ht, _⟩ := head_item (hr'.items item' (by simp))
      simp [text, ht] at he
  case cons item script ih =>
    rw [all_cons, Bool.and_eq_true] at hp
    have hi := hr.items item (by simp)
    obtain ⟨c, cs, ht, hc⟩ := head_item hi
    cases script'
    case nil => simp [text, ht] at he
    case cons item' script' =>
      have hi' := hr'.items item' (by simp)
      obtain ⟨c', cs', ht', hc'⟩ := head_item hi'
      obtain rfl : c = c' := by
        simp only [text, flatMap_cons, ht, ht', cons_append] at he
        exact (cons.inj he).1
      have hs := ih hr.tail hp.2 hr'.tail
      cases item
      case redirection => cases hp.1
      case blank d =>
        simp only [Item.heads, mem_cons, not_mem_nil, or_false, decide_eq_true_eq] at hc
        cases item'
        case blank d' =>
          obtain ⟨rfl, hu⟩ := cons.inj he
          rw [hs hu]
        all_goals rcases hc with rfl | rfl <;> exact absurd hc' (by simp [Item.heads, stops])
      case operator o =>
        cases item'
        case operator o' =>
          obtain ⟨rfl, hu⟩ := operator_unique hr hr' he
          rw [hs hu]
        all_goals
          simp only [Item.heads, mem_cons, not_mem_nil, or_false, decide_eq_true_eq] at hc
          rcases hc with rfl | rfl | rfl | rfl <;> exact absurd hc' (by simp [Item.heads, stops])
      case word w =>
        obtain ⟨d, ds, hd, hstop, hredir, _⟩ := plain_head_word hi hp.1
        obtain rfl : d = c := (cons.inj (hd.symm.trans ht)).1
        simp only [stops, mem_cons, not_mem_nil, or_false, not_or] at hstop hredir
        cases item'
        case word w' =>
          simp only [Item.isReadable, Word.isReadable, decide_eq_true_eq] at hi hi'
          simp only [Item.isPlain, Word.isPlain, decide_eq_true_eq] at hp
          obtain ⟨rfl, hu⟩ := word_unique hi.2.2 hp.1.1 hi'.2.2 (plain_head_after hr hp.2)
            (head_after hr') he
          rw [hs hu]
        all_goals exact absurd hc' (by simp [Item.heads, hstop, hredir])

end Reading

section Programs

section

variable (token : String)
include token

theorem hasChar_lower (h : isCaseless c) :
    hasChar (lower token) c = hasChar token c := by
  simp [hasChar, lower, toLower_eq_iff h]

theorem startsWith_lower (h : isCaseless c) :
    startsWith (lower token) (String.ofList [c]) = startsWith token (String.ofList [c]) := by
  rw [startsWith, startsWith, lower, String.toList_ofList, String.toList_ofList]
  cases token.toList
  case nil => rfl
  case cons d cs =>
    have hd : c = d.toLower ↔ c = d := by rw [eq_comm, toLower_eq_iff h, eq_comm]
    simp [List.isPrefixOf, hd]

theorem isAssignment_lower : isAssignment (lower token) = isAssignment token := by
  rw [isAssignment, isAssignment, hasChar_lower token (by decide)]
  exact congrArg _ (congrArg not (startsWith_lower token (c := '=') (by decide)))

theorem isOption_lower : isOption (lower token) = isOption token :=
  startsWith_lower token (c := '-') (by decide)

theorem basename_lower : basename (lower token) = lower (basename token) := by
  have hs : ((fun c => decide (c ∉ ['/', '\\'])) ∘ Char.toLower) =
      fun c => decide (c ∉ ['/', '\\']) := by
    funext c
    simp [toLower_eq_iff (d := '/') (by decide), toLower_eq_iff (d := '\\') (by decide)]
  simp only [basename, lower, String.toList_ofList]
  rw [← map_reverse, takeWhile_map, hs, map_reverse]

end

theorem dropWhile_lower (h : ∀ token, p (lower token) = p token) (tokens : List String) :
    (tokens.map lower).dropWhile p = (tokens.dropWhile p).map lower := by
  have hp : p ∘ lower = p := funext h
  rw [dropWhile_map, hp]

theorem isAssignment_value (h : Word.isAssignment w) : isAssignment (Word.value w) := by
  have hm : ∀ (w : Word) (name : List Char), Word.isAssignmentFrom name w → '=' ∈ Word.content w := by
    intro w
    induction w
    case nil => exact nofun
    case cons part w ih =>
      intro name h
      cases part
      case plain c =>
        rw [Word.isAssignmentFrom] at h
        split at h
        case isTrue hc => simp [Word.content, Part.content, hc]
        rw [Bool.and_eq_true] at h
        exact mem_cons_of_mem _ (ih _ h.2)
      all_goals cases h
  rw [Word.isAssignment, Bool.and_eq_true] at h
  have he := hm w [] h.1
  cases w
  case nil => cases he
  case cons part w =>
    cases part
    case plain c =>
      have hc : c ≠ '=' := by
        rintro rfl
        cases h.1
      have hs : startsWith (Word.value (.plain c :: w)) "=" = false := by
        simp [startsWith, Word.value, Word.content, Part.content, List.isPrefixOf, Ne.symm hc]
      rw [isAssignment, hs, hasChar, Word.value, String.toList_ofList]
      simpa using he
    all_goals cases h.1

end Programs

-- The conditions under which the program of a command is found: it is not taken for an assignment,
-- and if it is `env`, it has no options.
structure PlainProgram (argv : List String) : Prop where
  program : ∀ token ∈ argv.head?, isAssignment token = false
  env : ∀ program args, argv = program :: args → basename program = "env" →
    ∀ arg ∈ args.takeWhile fun arg => isOption arg || isAssignment arg, isOption arg = false

structure Plain (script : Script) : Prop where
  readable : Script.Readable script
  items : script.all Item.isPlain
  programs : ∀ argv ∈ Script.programs script, PlainProgram argv

theorem Plain.no_scripts (h : Plain script) : scripts script = [] := by
  have hq : ∀ q : Quoted, q.isPlain → q.scripts = [] := by
    intro q hq
    cases q <;> first | rfl | cases hq
  have hpart : ∀ part : Part, part.isPlain → part.scripts = [] := by
    intro part hp
    cases part
    case double parts =>
      refine flatMap_eq_nil_iff.mpr fun q hm => hq q ?_
      exact all_eq_true.mp hp q hm
    case substitution | backquoted | process => cases hp
    all_goals rfl
  refine flatMap_eq_nil_iff.mpr fun item hm => ?_
  have hi := all_eq_true.mp h.items item hm
  cases item
  case word w =>
    simp only [Item.isPlain, Word.isPlain, decide_eq_true_eq, all_eq_true] at hi
    exact flatMap_eq_nil_iff.mpr fun part hw => hpart part (hi.1 part hw)
  all_goals rfl

theorem Plain.runs (h : Plain script) {argv : List String} (hs : Starts (text script) argv) :
    Runs script argv := by
  generalize ht : text script = text at hs
  cases hs
  case runs script' hr' hrun => rwa [script_unique h.readable h.items hr' ht]
  case inside script' inner hr' hm _ =>
    rw [← script_unique h.readable h.items hr' ht, h.no_scripts] at hm
    cases hm

section Classified

-- The class of a command, up to the case of its words.
abbrev classOf (argv : List String) : StageClass :=
  classifyStage (argv.map lower)

section

variable (args : List String) (hp : isAssignment program = false)
include args hp

theorem executable_lower :
    executableAndArgs ((program :: args).map lower) =
      if lower (basename program) = "env" then
        match args.dropWhile fun arg => isOption arg || isAssignment arg with
        | [] => some ("env", [])
        | nested :: args => some (lower (basename nested), args.map lower)
      else
        some (lower (basename program), args.map lower) := by
  have hd : ((program :: args).map lower).dropWhile isAssignment = lower program :: args.map lower := by
    rw [map_cons, dropWhile_cons_of_neg (by simp [isAssignment_lower, hp])]
  have ho := dropWhile_lower (p := fun arg => isOption arg || isAssignment arg)
    (fun token => by rw [isOption_lower, isAssignment_lower]) args
  rw [executableAndArgs, hd]
  simp only [basename_lower, ho]
  cases args.dropWhile fun arg => isOption arg || isAssignment arg <;> simp [basename_lower]

theorem classOf_program
    (he : lower (basename program) ≠ "env") :
    classOf (program :: args) = classifyCommand (lower (basename program)) (args.map lower) := by
  rw [classOf, classifyStage, executable_lower args hp, if_neg he]

theorem classOf_env (he : lower (basename program) = "env")
    (hd : args.dropWhile (fun arg => isOption arg || isAssignment arg) = nested :: rest) :
    classOf (program :: args) = classifyCommand (lower (basename nested)) (rest.map lower) := by
  rw [classOf, classifyStage, executable_lower args hp, if_pos he, hd]

end

theorem env_alone (h : classifyCommand "env" args ≠ .unknown) : args = [] := by
  cases args
  case nil => rfl
  case cons arg args =>
    refine absurd ?_ h
    simp [classifyCommand, readOnlyCommands, ordinaryWriteCommands]

theorem isOption_of_startsWith (h : startsWith token (String.ofList ['-', c])) :
    isOption token := by
  rw [startsWith, String.toList_ofList] at h
  rw [isOption, startsWith]
  cases he : token.toList
  case nil =>
    rw [he] at h
    cases h
  case cons d cs =>
    rw [he] at h
    rw [List.isPrefixOf, Bool.and_eq_true] at h
    exact (Bool.and_eq_true ..).mpr ⟨h.1, rfl⟩

section Env

variable {args : List String}
  (h : ∀ arg ∈ args.takeWhile fun arg => isOption arg || isAssignment arg, isOption arg = false)

include h

theorem envOperands_plain : envOperands args = args := by
  cases args
  case nil => rfl
  case cons arg args =>
    have ho : isOption arg = false := by
      by_contra ha
      exact absurd (h arg (by simp [ha])) (by simp [ha])
    have hs : startsWith arg "-S" = false :=
      Bool.eq_false_iff.mpr fun hs => absurd (isOption_of_startsWith hs) (by simp [ho])
    have hu : ∀ option, isOption option → arg ≠ option := by
      rintro _ hopt rfl
      exact absurd (hopt.symm.trans ho) (by decide)
    rw [envOperands.eq_def]
    simp [hu "-S" (by decide), hu "-u" (by decide), hu "-C" (by decide), hs, ho]

theorem dropWhile_plain :
    args.dropWhile (fun arg => isOption arg || isAssignment arg) = args.dropWhile isAssignment := by
  induction args
  case nil => rfl
  case cons arg args ih =>
    by_cases ha : isOption arg || isAssignment arg
    case pos =>
      rw [takeWhile_cons, if_pos ha] at h
      have ho := h arg mem_cons_self
      have hs : isAssignment arg := by simpa [ho] using ha
      rw [dropWhile_cons, if_pos ha, dropWhile_cons_of_pos hs]
      exact ih fun a hm => h a (mem_cons_of_mem _ hm)
    case neg =>
      have hs : ¬ isAssignment arg := fun hs => ha (by simp [hs])
      rw [dropWhile_cons, if_neg ha, dropWhile_cons_of_neg hs]

end Env

theorem env_classified (h : PlainProgram (program :: args))
    (hc : classOf (program :: args) ≠ .unknown) (hn : envProgram (program :: args) = some nested) :
    classOf nested ≠ .unknown ∧ envProgram nested = none := by
  have hlow : lower "env" = "env" := by decide
  rw [envProgram.eq_def] at hn
  dsimp only at hn
  split at hn
  case isFalse => cases hn
  case isTrue he =>
    have hopt := h.env program args rfl he
    rw [envOperands_plain hopt] at hn
    cases hd : args.dropWhile isAssignment
    case nil =>
      rw [hd] at hn
      cases hn
    case cons nest rest =>
      rw [hd] at hn
      cases hn
      have hnest : isAssignment nest = false := by
        simpa [hd] using head?_dropWhile_not isAssignment args
      rw [classOf_env args (h.program program rfl) (by rw [he, hlow])
        ((dropWhile_plain hopt).trans hd)] at hc
      by_cases hb : lower (basename nest) = "env"
      case pos =>
        rw [hb] at hc
        obtain rfl : rest = [] := map_eq_nil_iff.mp (env_alone hc)
        refine ⟨?_, ?_⟩
        · rw [classOf, classifyStage, executable_lower [] hnest, if_pos hb]
          exact hc
        · rw [envProgram.eq_def]
          simp [envOperands]
      case neg =>
        have hne : basename nest ≠ "env" := fun hx => hb (by rw [hx, hlow])
        refine ⟨fun hx => hc ((classOf_program rest hnest hb).symm.trans hx), ?_⟩
        exact if_neg hne

end Classified

theorem classifyStage_argv
    (h : ∀ token ∈ ((argv words).map Word.value).head?, isAssignment token = false) :
    classifyStage (words.map lowered) = classOf ((argv words).map Word.value) := by
  have hd : (words.map lowered).dropWhile isAssignment =
      (((argv words).map Word.value).map lower).dropWhile isAssignment := by
    induction words
    case nil => rfl
    case cons w words ih =>
      by_cases hw : Word.isAssignment w
      case pos =>
        rw [argv, dropWhile_cons_of_pos hw] at h ⊢
        rw [map_cons, dropWhile_cons_of_pos]
        · exact ih h
        · rw [lowered, isAssignment_lower]
          exact isAssignment_value hw
      case neg =>
        rw [argv, dropWhile_cons_of_neg hw, map_map]
        rfl
  rw [classOf, classifyStage, classifyStage, executableAndArgs, executableAndArgs, hd]

theorem classified_program (h : Plain script)
    (ha : (assessCommandRisk (String.ofList (text script))).autoExecutable) {argv : List String}
    (hm : argv ∈ programs script) : classOf argv ≠ .unknown := by
  have hp := h.programs argv hm
  simp only [programs, mem_map, mem_filter, decide_eq_true_eq] at hm
  obtain ⟨_, ⟨⟨words, hw, rfl⟩, hne, _⟩, rfl⟩ := hm
  rw [← classifyStage_argv hp.program]
  refine classified_of_auto ha _ ?_
  rw [stages_eq h.readable h.items]
  refine mem_map_of_mem (mem_filter.mpr ⟨hw, ?_⟩)
  refine decide_eq_true fun hnil => hne ?_
  rw [hnil]
  rfl

-- A listing whose lines are searched.
def listing : Script :=
  [.word ("env".toList.map .plain), .blank ' ', .word ("LC_ALL=C".toList.map .plain), .blank ' ',
   .word ("ls".toList.map .plain), .blank ' ', .word ("-l".toList.map .plain), .blank ' ',
   .operator .pipe, .word ("grep".toList.map .plain), .blank '\t', .word [.single "a b".toList]]

def removal : Script :=
  [.word ("rm".toList.map .plain), .blank ' ', .word ("x".toList.map .plain)]

def substitution : Script :=
  [.word ("ls".toList.map .plain), .blank ' ', .word [.substitution (Script.text removal)]]

def unsetting : Script :=
  [.word ("env".toList.map .plain), .blank ' ', .word ("-u".toList.map .plain), .blank ' ',
   .word ("ls".toList.map .plain), .blank ' '] ++ removal

end NyaTerm.Policy.Shell
