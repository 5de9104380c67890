import NyaTerm.Telnet.Codec

open List

namespace NyaTerm.Telnet

section Parser

variable {mode : Mode} {byte : UInt8} {bytes : Bytes}

theorem parse_stopped : (parse mode byte).stopped = false := by
  cases mode <;> simp only [parse] <;> split_ifs <;> rfl

theorem run_cons : Transducer.run parse mode (byte :: bytes) =
    ⟨(parse mode byte).output ++ (Transducer.run parse (parse mode byte).state bytes).output,
      (Transducer.run parse (parse mode byte).state bytes).state,
      (Transducer.run parse (parse mode byte).state bytes).stopped⟩ := by
  rw [Transducer.run]
  rw [if_neg (by rw [parse_stopped]; decide)]

theorem run_stopped : (Transducer.run parse mode bytes).stopped = false := by
  induction bytes generalizing mode
  case nil => rfl
  case cons ih => rw [run_cons]; exact ih

theorem run_append {later : Bytes} : Transducer.run parse mode (bytes ++ later) =
    ⟨(Transducer.run parse mode bytes).output ++
        (Transducer.run parse (Transducer.run parse mode bytes).state later).output,
      (Transducer.run parse (Transducer.run parse mode bytes).state later).state,
      (Transducer.run parse (Transducer.run parse mode bytes).state later).stopped⟩ :=
  Transducer.run_append run_stopped

-- What the loop of one read adds when the bytes end in the middle of a command.
def Mode.cutOff : Mode → List Item
  | .command => [.visible iac]
  | _ => []

theorem run_insideCommand (h : command ≠ se) :
    Transducer.run parse .insideCommand (command :: bytes) =
      Transducer.run parse .inside (command :: bytes) := by
  rw [run_cons, run_cons]
  simp only [parse, if_neg h]

theorem strip_eq_run (inside : Bool) (bytes : Bytes) :
    stripTelnetCommands inside bytes =
      (Transducer.run parse (bif inside then .inside else .data) bytes).output ++
        (Transducer.run parse (bif inside then .inside else .data) bytes).state.cutOff := by
  fun_induction stripTelnetCommands inside bytes
  case case1 inside => cases inside <;> rfl
  case case2 byte =>
    rw [run_cons]
    simp only [cond_true, parse]
    split_ifs <;> rfl
  case case3 inside byte h =>
    obtain rfl := Bool.eq_false_iff.mpr h
    rw [run_cons]
    simp only [cond_false, parse]
    split_ifs with hb
    · rw [hb]; rfl
    · rfl
  case case4 byte command rest hend ih =>
    obtain ⟨rfl, rfl⟩ := hend
    rw [ih, run_cons, run_cons]
    rfl
  case case5 byte command rest hend ih =>
    rw [ih, @run_cons _ byte]
    simp only [cond_true, parse]
    split_ifs with hb
    · rw [run_insideCommand (fun hc => hend ⟨hb, hc⟩)]; rfl
    · rfl
  case case6 inside byte command rest h hb ih =>
    obtain rfl := Bool.eq_false_iff.mpr h
    rw [ih, @run_cons _ byte]
    simp only [cond_false, parse, if_neg hb]
    rfl
  case case7 inside byte rest h hb ih =>
    obtain rfl := Bool.eq_false_iff.mpr h
    rw [ih, not_not.mp hb, run_cons, run_cons]
    rfl
  case case8 inside byte command h hb hc hn =>
    obtain rfl := Bool.eq_false_iff.mpr h
    rw [not_not.mp hb, run_cons, run_cons]
    simp only [cond_false, parse, if_pos, if_neg hc, hn]
    rfl
  case case9 inside byte command h hb hc hn option rest ih =>
    obtain rfl := Bool.eq_false_iff.mpr h
    rw [ih, not_not.mp hb, run_cons, run_cons, run_cons]
    simp only [cond_false, parse, if_pos, if_neg hc, hn]
    rfl
  case case10 inside byte rest h hb hc hn ih =>
    obtain rfl := Bool.eq_false_iff.mpr h
    rw [ih, not_not.mp hb, run_cons, run_cons]
    rfl
  case case11 inside byte command rest h hb hc hn hs ih =>
    obtain rfl := Bool.eq_false_iff.mpr h
    rw [ih, not_not.mp hb, run_cons, run_cons]
    simp only [cond_false, parse, if_pos, if_neg hc, if_neg hn, if_neg hs]
    rfl

end Parser

section Raw

variable {byte : UInt8} {bytes : Bytes}

theorem unescape_append (h : endsPaired bytes = true) (later : Bytes) :
    unescapeIacIac (bytes ++ later) = unescapeIacIac bytes ++ unescapeIacIac later := by
  fun_induction unescapeIacIac bytes
  case case1 => rfl
  case case2 byte =>
    have hbyte : byte ≠ iac := of_decide_eq_true h
    cases later
    case nil => rfl
    case cons => exact if_neg fun hb => hbyte hb.1
  case case3 byte next rest hpair ih =>
    rw [endsPaired, if_pos hpair] at h
    rw [cons_append, cons_append, unescapeIacIac, if_pos hpair, ih h]
    rfl
  case case4 byte next rest hpair ih =>
    rw [endsPaired, if_neg hpair] at h
    rw [cons_append, cons_append, unescapeIacIac, if_neg hpair, ← cons_append, ih h]
    rfl

-- The partner comes with the next read.
theorem unescape_cut (h : endsPaired bytes = false) :
    unescapeIacIac (bytes ++ [iac]) = unescapeIacIac bytes := by
  fun_induction unescapeIacIac bytes
  case case1 => cases h
  case case2 byte =>
    rw [not_not.mp (of_decide_eq_false h)]
    rfl
  case case3 byte next rest hpair ih =>
    rw [endsPaired, if_pos hpair] at h
    rw [cons_append, cons_append, unescapeIacIac, if_pos hpair, ih h]
  case case4 byte next rest hpair ih =>
    rw [endsPaired, if_neg hpair] at h
    rw [cons_append, cons_append, unescapeIacIac, if_neg hpair, ← cons_append, ih h]

theorem length_unescape_le (bytes : Bytes) : (unescapeIacIac bytes).length ≤ bytes.length := by
  fun_induction unescapeIacIac bytes
  case case1 | case2 => exact Nat.le_refl _
  case case3 | case4 => simp only [length_cons] at *; omega

theorem unescape_eq_self : unescapeIacIac bytes = bytes ↔ ¬ [iac, iac] <:+: bytes := by
  fun_induction unescapeIacIac bytes
  case case1 => simp
  case case2 byte => simp [infix_cons_iff]
  case case3 byte next rest hpair ih =>
    obtain ⟨rfl, rfl⟩ := hpair
    refine iff_of_false (fun h => ?_) (not_not.mpr (prefix_append [iac, iac] rest).isInfix)
    have hle := length_unescape_le rest
    have hlength := congrArg List.length h
    simp only [length_cons] at hlength
    omega
  case case4 byte next rest hpair ih =>
    have hprefix : ¬ [iac, iac] <+: byte :: next :: rest := by
      simp only [cons_prefix_cons, nil_prefix, and_true]
      exact fun h => hpair ⟨h.1.symm, h.2.symm⟩
    rw [cons_inj_right, ih, @infix_cons_iff _ _ byte, or_iff_right hprefix]

end Raw

section Division

variable {read : Bytes} {rawTcp : Bool}

theorem readOne_append (h : endsCommand rawTcp read = true) :
    readOne rawTcp (read ++ later) = readOne rawTcp read ++ readOne rawTcp later := by
  cases rawTcp
  case true => simp only [readOne, if_true, unescape_append h later, map_append]
  case false =>
    have hstate : (Transducer.run parse .data read).state = .data := of_decide_eq_true h
    simp only [readOne, Bool.false_eq_true, if_false, strip_eq_run, cond_false, run_append, hstate,
      Mode.cutOff, append_nil, append_assoc]

theorem readAll_eq (h : ∀ read ∈ reads, endsCommand rawTcp read = true) :
    readAll rawTcp reads = readOne rawTcp reads.flatten := by
  induction reads
  case nil => cases rawTcp <;> rfl
  case cons read reads ih =>
    rw [readAll, flatMap_cons, flatten_cons, readOne_append (h read mem_cons_self),
      ← ih fun read hr => h read (mem_cons_of_mem _ hr), readAll]

theorem visibleBytes_append (items items' : List Item) :
    visibleBytes (items ++ items') = visibleBytes items ++ visibleBytes items' :=
  filterMap_append

theorem negotiations_append (items items' : List Item) :
    negotiations (items ++ items') = negotiations items ++ negotiations items' :=
  filterMap_append

theorem visibleBytes_visible (data : Bytes) : visibleBytes (data.map .visible) = data := by
  rw [visibleBytes, filterMap_map]
  exact filterMap_some

theorem negotiations_visible (data : Bytes) : negotiations (data.map .visible) = [] := by
  rw [negotiations, filterMap_map]
  exact filterMap_eq_nil_iff.mpr fun _ _ => rfl

theorem sameItems_append_left {after : List Item} :
    SameItems (items ++ before) (items ++ after) ↔ SameItems before after := by
  simp only [SameItems, visibleBytes_append, negotiations_append, append_cancel_left_eq]

theorem cut_shows (h : mode ≠ .data) : ∃ byte,
    ¬ SameItems (mode.cutOff ++ stripTelnetCommands false [byte])
      ((Transducer.run parse mode [byte]).output ++ (Transducer.run parse mode [byte]).state.cutOff) := by
  cases mode
  case data => exact absurd rfl h
  case command => exact ⟨iac, fun h => (by cases h.1)⟩
  case option command | inside | insideCommand => exact ⟨0, fun h => (by cases h.1)⟩

theorem readAll_pair : readAll rawTcp [read, later] = readOne rawTcp read ++ readOne rawTcp later := by
  rw [readAll, flatMap_cons, flatMap_singleton]

-- What is cut off shows a difference for some byte that is read next.
theorem shows_cut (h : endsCommand rawTcp read = false) : ∃ byte,
    ¬ SameItems (readAll rawTcp [read, [byte]]) (readOne rawTcp (read ++ [byte])) := by
  cases rawTcp
  case true =>
    refine ⟨iac, fun hsame => ?_⟩
    have hvisible := hsame.1
    simp only [readAll_pair, readOne, if_true, visibleBytes_append, visibleBytes_visible,
      unescape_cut h] at hvisible
    cases append_right_eq_self.mp hvisible
  case false =>
    obtain ⟨byte, hbyte⟩ := cut_shows (of_decide_eq_false h)
    refine ⟨byte, fun hsame => hbyte ?_⟩
    simp only [readAll_pair, readOne, Bool.false_eq_true, if_false] at hsame
    rw [strip_eq_run false read, strip_eq_run false (read ++ [byte]), cond_false, run_append,
      append_assoc, append_assoc, sameItems_append_left] at hsame
    exact hsame

theorem endsCommand_iff : endsCommand rawTcp read = true ↔
    ∀ later, SameItems (readAll rawTcp [read, later]) (readOne rawTcp (read ++ later)) := by
  constructor
  · intro h later
    rw [readOne_append h, readAll_pair]
    exact ⟨rfl, rfl⟩
  · intro h
    by_contra hcut
    obtain ⟨byte, hbyte⟩ := shows_cut (Bool.eq_false_iff.mpr hcut)
    exact hbyte (h [byte])

end Division

section Escaping

theorem escape_cons (byte : UInt8) (data : Bytes) : escapeTelnetApplicationData (byte :: data) false =
    (if byte = iac then [iac, iac] else [byte]) ++ escapeTelnetApplicationData data false :=
  rfl

theorem run_escape (data : Bytes) : Transducer.run parse .data (escapeTelnetApplicationData data false) =
    ⟨data.map .visible, .data, false⟩ := by
  induction data
  case nil => rfl
  case cons byte data ih =>
    rw [escape_cons]
    split
    case isTrue h => rw [cons_append, cons_append, run_cons, run_cons, h]; simp [parse, ih, iac]
    case isFalse h => simp [run_cons, parse, h, ih]

theorem strip_escape (data : Bytes) :
    stripTelnetCommands false (escapeTelnetApplicationData data false) = data.map .visible := by
  rw [strip_eq_run, cond_false, run_escape]
  exact append_nil _

theorem run_escape_end (data : Bytes) :
    Transducer.run parse .data (escapeTelnetApplicationData data false ++ [iac, se]) =
      ⟨data.map .visible, .data, false⟩ := by
  rw [run_append, run_escape]
  simp [parse, Transducer.run, iac, se, sb, isNegotiation, will, wont, «do», dont]

-- The data of a subnegotiation leave it at the first end that they imitate, after which they are
-- visible.
theorem run_inside_escape (data : Bytes) (afterIac : Bool) :
    Transducer.run parse (bif afterIac then .insideCommand else .inside)
        (escapeTelnetApplicationData data false ++ [iac, se]) =
      ⟨((imitatedEnd afterIac data).getD []).map .visible, .data, false⟩ := by
  induction data generalizing afterIac
  case nil => cases afterIac <;> rfl
  case cons byte data ih =>
    rw [escape_cons, imitatedEnd]
    by_cases hi : byte = iac
    case pos =>
      subst hi
      rw [if_pos rfl, if_neg (fun h => absurd h.2 (by decide)), append_assoc, cons_append, cons_append,
        run_cons, run_cons, ← ih]
      cases afterIac <;> rfl
    case neg =>
      rw [if_neg hi, append_assoc, singleton_append, run_cons]
      cases afterIac
      case false =>
        have h := ih false
        simp only [cond_false] at h
        simp [parse, hi, h]
      case true =>
        by_cases hs : byte = se
        case pos => simp [parse, hs, run_escape_end]
        have h := ih false
        simp only [cond_false] at h
        simp [parse, hi, hs, h]

theorem strip_subnegotiation (data rest : Bytes) :
    stripTelnetCommands false (subnegotiation data ++ rest) =
      ((imitatedEnd false data).getD []).map .visible ++ stripTelnetCommands false rest := by
  have hrun : Transducer.run parse .data (subnegotiation data) =
      ⟨((imitatedEnd false data).getD []).map .visible, .data, false⟩ := by
    rw [← run_inside_escape, subnegotiation, append_assoc, cons_append, cons_append,
      run_cons, run_cons]
    rfl
  have happend := @readOne_append (subnegotiation data) false rest (by simp [endsCommand, hrun])
  simp only [readOne, Bool.false_eq_true, if_false] at happend
  rw [happend, strip_eq_run false (subnegotiation data), cond_false, hrun]
  exact congrArg (· ++ _) (append_nil _)

-- A subnegotiation is skipped, whatever follows, exactly if it imitates no end of itself but at its
-- end.
theorem skips_subnegotiation_iff : (imitatedEnd false data).getD [] = [] ↔
    ∀ rest, SameItems (stripTelnetCommands false (subnegotiation data ++ rest))
      (stripTelnetCommands false rest) := by
  simp only [strip_subnegotiation]
  constructor
  · intro h rest
    rw [h]
    exact ⟨rfl, rfl⟩
  · intro h
    have hvisible := (h []).1
    rw [visibleBytes_append, visibleBytes_visible] at hvisible
    exact append_left_eq_self.mp hvisible

end Escaping

section WindowSize

variable {cols rows : UInt16} {config : SessionConfig}

theorem readSubnegotiation_escape (data rest : Bytes) :
    readSubnegotiation (escapeTelnetApplicationData data false ++ iac :: se :: rest) =
      some (data, rest) := by
  induction data
  case nil => rfl
  case cons byte data ih =>
    rw [escape_cons]
    split
    case isTrue h =>
      rw [h, append_assoc, cons_append, singleton_append, readSubnegotiation,
        if_neg (fun h => h rfl), if_pos rfl, ih]
      rfl
    case isFalse h =>
      obtain ⟨next, later, hcons⟩ : ∃ next later,
          escapeTelnetApplicationData data false ++ iac :: se :: rest = next :: later :=
        exists_cons_of_ne_nil (by simp)
      rw [append_assoc, singleton_append, hcons, readSubnegotiation, if_pos h, ← hcons, ih]
      rfl

theorem eq_of_readSubnegotiation (h : readSubnegotiation bytes = some (data, rest)) :
    bytes = escapeTelnetApplicationData data false ++ iac :: se :: rest := by
  fun_induction readSubnegotiation bytes generalizing data
  case case1 | case2 => cases h
  case case3 byte command later hb ih =>
    obtain ⟨⟨read, rest'⟩, hread, heq⟩ := Option.map_eq_some_iff.mp h
    cases heq
    rw [ih hread, escape_cons, if_neg hb]
    rfl
  case case4 byte later hb ih =>
    obtain ⟨⟨read, rest'⟩, hread, heq⟩ := Option.map_eq_some_iff.mp h
    cases heq
    rw [ih hread, escape_cons, if_pos rfl, not_not.mp hb]
    rfl
  case case5 byte later hb hc =>
    cases h
    rw [not_not.mp hb]
    rfl
  case case6 => cases h

theorem readSubnegotiation_eq_some :
    readSubnegotiation bytes = some (data, rest) ↔
      bytes = escapeTelnetApplicationData data false ++ iac :: se :: rest :=
  ⟨eq_of_readSubnegotiation, fun h => h ▸ readSubnegotiation_escape data rest⟩

theorem escape_append (data later : Bytes) : escapeTelnetApplicationData (data ++ later) false =
    escapeTelnetApplicationData data false ++ escapeTelnetApplicationData later false :=
  flatMap_append

theorem length_le_escape (data : Bytes) :
    data.length ≤ (escapeTelnetApplicationData data false).length := by
  induction data
  case nil => exact Nat.le_refl _
  case cons byte data ih =>
    rw [escape_cons]
    split_ifs <;> simp <;> omega

theorem escape_eq_self (data : Bytes) :
    data = escapeTelnetApplicationData data false ↔ iac ∉ data := by
  constructor
  · intro h hmem
    obtain ⟨before, after, rfl⟩ := append_of_mem hmem
    have hlength := congrArg List.length h
    rw [escape_append, escape_cons, if_pos rfl] at hlength
    have hbefore := length_le_escape before
    have hafter := length_le_escape after
    simp only [length_append, length_cons, length_nil] at hlength
    omega
  · intro h
    rw [escapeTelnetApplicationData, if_neg Bool.false_ne_true,
      flatMap_congr fun byte hb => if_neg (ne_of_mem_of_not_mem hb h), List.flatMap_singleton']

theorem word_eq : UInt16.ofNat (a.toNat * 256 + b.toNat) = word ↔
    a = (word >>> 8).toUInt8 ∧ b = (word &&& 0xff).toUInt8 := by
  have ha := a.toNat_lt
  have hb := b.toNat_lt
  have hw := word.toNat_lt
  have hand : word.toNat &&& 255 = word.toNat % 256 := Nat.and_two_pow_sub_one_eq_mod word.toNat 8
  have hhigh : (word >>> 8).toUInt8.toNat = word.toNat / 256 := by
    rw [UInt16.toNat_toUInt8, UInt16.toNat_shiftRight]
    exact (Nat.mod_eq_of_lt (by rw [Nat.shiftRight_eq_div_pow]; change word.toNat / 256 < 256; omega)).trans
      (Nat.shiftRight_eq_div_pow word.toNat 8)
  have hlow : (word &&& 0xff).toUInt8.toNat = word.toNat % 256 := by
    rw [UInt16.toNat_toUInt8, UInt16.toNat_and]
    change (word.toNat &&& 255) % 256 = _
    rw [hand, Nat.mod_mod]
  have hword : (UInt16.ofNat (a.toNat * 256 + b.toNat)).toNat = a.toNat * 256 + b.toNat :=
    UInt16.toNat_ofNat_of_lt' (by change _ < 65536; omega)
  rw [← UInt16.toNat_inj, ← UInt8.toNat_inj, ← UInt8.toNat_inj, hhigh, hlow, hword]
  omega

theorem readWindowSize_eq_some :
    readWindowSize (iac :: sb :: optNaws :: bytes) = some (cols, rows, rest) ↔
      readSubnegotiation bytes = some (sizeBytes cols rows, rest) := by
  rw [readWindowSize, if_pos rfl]
  split
  case h_1 a b c d later h =>
    rw [h]
    simp only [Option.some.injEq, Prod.mk.injEq, sizeBytes, List.cons.injEq, word_eq]
    tauto
  case h_2 h =>
    constructor
    · intro hnone
      cases hnone
    · intro hread
      exact absurd hread (h _ _ _ _ _)

-- The window size of a message is read back exactly if none of its bytes has to be doubled.
theorem window_size_is_decodable_iff (h : maybeBuildNaws cols rows config = some message) :
    readWindowSize message = some (cols, rows, []) ↔ iac ∉ sizeBytes cols rows := by
  rw [maybeBuildNaws] at h
  split at h
  case isTrue => cases h
  cases h
  rw [← escape_eq_self, append_assoc, cons_append, cons_append, singleton_append,
    readWindowSize_eq_some, readSubnegotiation_eq_some, append_cancel_right_eq]

theorem window_size_is_decodable_at_80_24 :
    readWindowSize [255, 250, 31, 0, 80, 0, 24, 255, 240] = some (80, 24, []) :=
  (@window_size_is_decodable_iff 80 24 ⟨false, true⟩ _ rfl).mpr (by decide)

theorem window_size_of_255_rows_is_lost :
    ∃ message, maybeBuildNaws 80 255 ⟨false, true⟩ = some message ∧ readWindowSize message = none :=
  ⟨[255, 250, 31, 0, 80, 0, 255, 255, 240], by decide, by decide⟩

end WindowSize

theorem readOne_escape_iff :
    visibleBytes (readOne rawTcp (escapeTelnetApplicationData data rawTcp)) = data ∧
      negotiations (readOne rawTcp (escapeTelnetApplicationData data rawTcp)) = [] ↔
    (rawTcp = true → ¬ [iac, iac] <:+: data) := by
  cases rawTcp
  case true =>
    simp only [readOne, escapeTelnetApplicationData, if_true, visibleBytes_visible,
      negotiations_visible, and_true, forall_const]
    exact unescape_eq_self
  case false =>
    refine iff_of_true ?_ (fun h => (by cases h))
    simp only [readOne, Bool.false_eq_true, if_false, strip_escape]
    exact ⟨visibleBytes_visible data, negotiations_visible data⟩

-- The reader remembers nothing between two reads: they show no difference to the undivided stream
-- exactly where a read ends with the end of a command, and a subnegotiation is skipped exactly if
-- its data imitate no end before theirs. Raw data are not escaped, but unescaped.
theorem parsing_is_independent_of_reads (rawTcp : Bool) (reads : List Bytes) :
    ((∀ read ∈ reads, endsCommand rawTcp read = true) →
      readAll rawTcp reads = readOne rawTcp reads.flatten) ∧
    (∀ read, endsCommand rawTcp read = true ↔
      ∀ later, SameItems (readAll rawTcp [read, later]) (readOne rawTcp (read ++ later))) ∧
    (∀ data, (imitatedEnd false data).getD [] = [] ↔
      ∀ rest, SameItems (stripTelnetCommands false (subnegotiation data ++ rest))
        (stripTelnetCommands false rest)) ∧
    (∀ data, reads.flatten = escapeTelnetApplicationData data rawTcp →
      (∀ read ∈ reads, endsCommand rawTcp read = true) →
      (visibleBytes (readAll rawTcp reads) = data ∧ negotiations (readAll rawTcp reads) = [] ↔
        (rawTcp = true → ¬ [iac, iac] <:+: data))) := by
  refine ⟨readAll_eq, fun read => endsCommand_iff, fun data => skips_subnegotiation_iff,
    fun data hdata hreads => ?_⟩
  rw [readAll_eq hreads, hdata]
  exact readOne_escape_iff

theorem parsing_is_independent_of_reads_of_doubled_bytes :
    visibleBytes (readAll false [[65, 255, 255], [66]]) = [65, 255, 66] ∧
      negotiations (readAll false [[65, 255, 255], [66]]) = [] :=
  ((parsing_is_independent_of_reads false [[65, 255, 255], [66]]).2.2.2 [65, 255, 66] rfl
    (by decide)).mpr (fun h => (by cases h))

-- A negotiation that is cut off becomes data, a doubled byte ends a subnegotiation, and two bytes
-- of raw data become one.
theorem reads_are_parsed_by_themselves :
    ¬ SameItems (readAll false [[255, 253], [31]]) (readOne false [255, 253, 31]) ∧
      visibleBytes (stripTelnetCommands false (subnegotiation [255, 240, 65])) = [65] ∧
      visibleBytes (readAll false [[255], [255]]) = [255, 255] ∧
      visibleBytes (readAll true [[255], [255]]) = [255, 255] ∧
      visibleBytes (readAll true [[255, 255]]) = [255] :=
  ⟨fun h => (by cases h.1), by decide, by decide, by decide, by decide⟩

end NyaTerm.Telnet
