import NyaTerm.Tmux.Control

namespace NyaTerm.Tmux

namespace ControlParser

variable {parser : ControlParser}

def pending (parser : ControlParser) : Bytes :=
  parser.takePending.1

-- What a user of the parser does with it.
inductive Action
  | push (data : Bytes)
  | nextLine
  deriving DecidableEq

-- The lines that are returned.
def run (parser : ControlParser) : List Action → List Bytes × ControlParser
  | [] => ([], parser)
  | .push data :: actions => (parser.push data).run actions
  | .nextLine :: actions =>
    let later := parser.nextLine.2.run actions
    (parser.nextLine.1.toList ++ later.1, later.2)

def pushed (actions : List Action) : Bytes :=
  actions.flatMap fun action =>
    match action with
    | .push data => data
    | .nextLine => []

theorem push_pending : (parser.push data).pending = parser.pending ++ data := by
  rw [push]
  split
  case isTrue => rfl
  case isFalse h =>
    have hzero : parser.consumed = 0 := Nat.eq_zero_of_not_pos h
    simp [pending, takePending, hzero]

theorem nextLine_none (h : parser.nextLine.1 = none) :
    newline ∉ parser.pending ∧ parser.nextLine.2 = parser := by
  rw [nextLine] at h ⊢
  split at h
  case h_1 hcut => exact ⟨Lines.cut_eq_none.mp hcut, rfl⟩
  case h_2 => cases h

theorem nextLine_some (h : parser.nextLine.1 = some line) : ∃ piece,
    newline ∉ piece ∧ parser.pending = piece ++ newline :: parser.nextLine.2.pending ∧
      line = stripCarriageReturn piece := by
  rw [nextLine] at h ⊢
  split at h
  case h_1 => cases h
  case h_2 piece rest hcut =>
    cases h
    obtain ⟨hfree, heq⟩ := Lines.eq_of_cut hcut
    refine ⟨piece, hfree, ?_, rfl⟩
    have hdrop : (parser.bytes.drop parser.consumed).drop (piece.length + 1) = rest := by
      rw [heq, List.drop_append, List.drop_eq_nil_of_le (Nat.le_succ _)]
      simp
    rw [pending, pending, takePending, takePending, Nat.add_assoc, ← List.drop_drop, hdrop]
    exact heq

-- The pieces between the newlines are returned one after the other, and what follows them is pending.
theorem run_pieces (parser : ControlParser) (actions : List Action) : ∃ pieces,
    parser.pending ++ pushed actions =
      Lines.join newline pieces ++ (parser.run actions).2.pending ∧
    (∀ piece ∈ pieces, newline ∉ piece) ∧
    (parser.run actions).1 = pieces.map stripCarriageReturn := by
  induction actions generalizing parser
  case nil => exact ⟨[], List.append_nil _, fun _ h => absurd h List.not_mem_nil, rfl⟩
  case cons action actions ih =>
    cases action
    case push data =>
      obtain ⟨pieces, heq, hfree, hlines⟩ := ih (parser.push data)
      rw [push_pending, List.append_assoc] at heq
      exact ⟨pieces, heq, hfree, hlines⟩
    case nextLine =>
      obtain ⟨pieces, heq, hfree, hlines⟩ := ih parser.nextLine.2
      cases hnext : parser.nextLine.1
      case none =>
        rw [(nextLine_none hnext).2] at heq hlines
        refine ⟨pieces, ?_, hfree, ?_⟩
        · rw [run, (nextLine_none hnext).2]
          exact heq
        · rw [run, hnext, (nextLine_none hnext).2]
          exact hlines
      case some line =>
        obtain ⟨piece, hpiece, hpending, rfl⟩ := nextLine_some hnext
        refine ⟨piece :: pieces, ?_, ?_, ?_⟩
        · rw [Lines.join_cons, List.append_assoc, List.cons_append, run, ← heq, hpending]
          simp [pushed]
        · rw [List.forall_mem_cons]
          exact ⟨hpiece, hfree⟩
        · rw [run, hnext, hlines]
          rfl

end ControlParser

section Octal

-- How tmux writes the output of a pane.
def escapeOctal (data : Bytes) : Bytes :=
  data.flatMap fun byte =>
    if byte < 32 ∨ byte = backslash then
      [backslash, 48 + byte / 64, 48 + byte / 8 % 8, 48 + byte % 8]
    else [byte]

theorem octalValue_digits (byte : UInt8) :
    isOctal 51 (48 + byte / 64) = true ∧ isOctal 55 (48 + byte / 8 % 8) = true ∧
      isOctal 55 (48 + byte % 8) = true ∧
      octalValue (48 + byte / 64) (48 + byte / 8 % 8) (48 + byte % 8) = byte := by
  have hlt := byte.toNat_lt
  have hfirst : (48 + byte / 64).toNat = 48 + byte.toNat / 64 := by
    rw [UInt8.toNat_add, UInt8.toNat_div]
    exact Nat.mod_eq_of_lt (by change 48 + byte.toNat / 64 < 256; omega)
  have hsecond : (48 + byte / 8 % 8).toNat = 48 + byte.toNat / 8 % 8 := by
    rw [UInt8.toNat_add, UInt8.toNat_mod, UInt8.toNat_div]
    exact Nat.mod_eq_of_lt (by change 48 + byte.toNat / 8 % 8 < 256; omega)
  have hthird : (48 + byte % 8).toNat = 48 + byte.toNat % 8 := by
    rw [UInt8.toNat_add, UInt8.toNat_mod]
    exact Nat.mod_eq_of_lt (by change 48 + byte.toNat % 8 < 256; omega)
  refine ⟨?_, ?_, ?_, ?_⟩
  · simp only [isOctal, UInt8.le_iff_toNat_le, hfirst, decide_eq_true_eq]
    exact ⟨Nat.le_add_right _ _, by change _ ≤ 51; omega⟩
  · simp only [isOctal, UInt8.le_iff_toNat_le, hsecond, decide_eq_true_eq]
    exact ⟨Nat.le_add_right _ _, by change _ ≤ 55; omega⟩
  · simp only [isOctal, UInt8.le_iff_toNat_le, hthird, decide_eq_true_eq]
    exact ⟨Nat.le_add_right _ _, by change _ ≤ 55; omega⟩
  · rw [octalValue, hfirst, hsecond, hthird]
    have hsum : (48 + byte.toNat / 64 - 48) * 64 + (48 + byte.toNat / 8 % 8 - 48) * 8 +
        (48 + byte.toNat % 8 - 48) = byte.toNat := by omega
    rw [hsum, UInt8.ofNat_toNat]

theorem unescapeOctal_of_ne (h : byte ≠ backslash) (rest : Bytes) :
    unescapeOctal (byte :: rest) = byte :: unescapeOctal rest := by
  rcases rest with - | ⟨first, - | ⟨second, - | ⟨third, rest⟩⟩⟩
  · rfl
  · rfl
  · rfl
  · rw [unescapeOctal, if_neg fun hb => h hb.1]

theorem unescapeOctal_escapeOctal (data : Bytes) : unescapeOctal (escapeOctal data) = data := by
  induction data
  case nil => rfl
  case cons byte data ih =>
    rw [escapeOctal, List.flatMap_cons, ← escapeOctal]
    split
    case isTrue =>
      obtain ⟨hfirst, hsecond, hthird, hvalue⟩ := octalValue_digits byte
      rw [List.cons_append, List.cons_append, List.cons_append, List.singleton_append, unescapeOctal,
        if_pos ⟨rfl, hfirst, hsecond, hthird⟩, hvalue, ih]
    case isFalse h => rw [List.singleton_append, unescapeOctal_of_ne (fun hb => h (.inr hb)), ih]

end Octal

-- The lines are the pieces between the newlines, without a carriage return at their end.
theorem control_output_is_decoded (actions : List ControlParser.Action) (data : Bytes) :
    (∃ pieces, ControlParser.pushed actions =
        Lines.join newline pieces ++ (ControlParser.new.run actions).2.takePending.1 ∧
      (∀ piece ∈ pieces, newline ∉ piece) ∧
      (ControlParser.new.run actions).1 = pieces.map ControlParser.stripCarriageReturn) ∧
    ((ControlParser.new.run actions).2.nextLine.1 = none ↔
      newline ∉ (ControlParser.new.run actions).2.takePending.1) ∧
    unescapeOctal (escapeOctal data) = data := by
  refine ⟨ControlParser.run_pieces .new actions, ⟨fun h => (ControlParser.nextLine_none h).1, ?_⟩,
    unescapeOctal_escapeOctal data⟩
  intro h
  cases hnext : (ControlParser.new.run actions).2.nextLine.1
  case none => rfl
  case some line =>
    obtain ⟨piece, -, hpending, -⟩ := ControlParser.nextLine_some hnext
    exact absurd (by rw [← ControlParser.pending, hpending]; simp) h

-- A carriage return before the newline is lost.
theorem carriage_return_is_lost :
    ControlParser.new.run [.push [97, 13, 10], .nextLine] = ([[97]], ⟨[97, 13, 10], 3⟩) ∧
      (ControlParser.new.run [.push [97, 10], .nextLine]).1 = [[97]] :=
  ⟨rfl, rfl⟩

end NyaTerm.Tmux
