import Mathlib.Data.List.Infix
import NyaTerm.Shell.Osc

open List

namespace NyaTerm.Shell.Osc

open Mealy

section Search

variable {after tail : Bytes}

theorem findSubsequence_eq_none (hneedle : needle ≠ []) (h : findSubsequence needle bytes = none) :
    ¬ needle <:+: bytes := by
  induction bytes
  case nil => exact fun hinside => hneedle (infix_nil.mp hinside)
  case cons b bytes ih =>
    rw [findSubsequence] at h
    split at h
    case isTrue => cases h
    case isFalse hprefix =>
      rw [infix_cons_iff]
      rintro (hhere | hlater)
      · exact hprefix (List.isPrefixOf_iff_prefix.mpr hhere)
      · exact ih (Option.map_eq_none_iff.mp h) hlater

theorem findSubsequence_eq_some (hneedle : needle ≠ []) (h : findSubsequence needle bytes = some n) :
    ∃ before after, bytes = before ++ needle ++ after ∧ before.length = n ∧
      ¬ needle <:+: before ++ needle.dropLast := by
  induction bytes generalizing n
  case nil =>
    rw [findSubsequence, if_neg hneedle] at h
    cases h
  case cons b bytes ih =>
    rw [findSubsequence] at h
    split at h
    case isTrue hprefix =>
      cases h
      obtain ⟨after, hafter⟩ := isPrefixOf_iff_prefix.mp hprefix
      refine ⟨[], after, hafter.symm, rfl, fun hinside => ?_⟩
      have hlength := hinside.length_le
      have hpos := length_pos_iff.mpr hneedle
      rw [nil_append, length_dropLast] at hlength
      omega
    case isFalse hprefix =>
      obtain ⟨m, hm, rfl⟩ := Option.map_eq_some_iff.mp h
      obtain ⟨before, after, rfl, hlength, hnone⟩ := ih hm
      refine ⟨b :: before, after, rfl, congrArg (· + 1) hlength, ?_⟩
      rw [cons_append, infix_cons_iff]
      rintro (hhere | hlater)
      · apply hprefix
        apply isPrefixOf_iff_prefix.mpr
        apply hhere.trans
        rw [prefix_cons_inj, append_assoc, prefix_append_right_inj]
        exact (List.dropLast_prefix needle).trans (prefix_append _ _)
      · exact hnone hlater

theorem idxOf?_first (h : b ∉ before) :
    (before ++ b :: after).idxOf? b = some before.length := by
  induction before
  case nil => simp [idxOf?_cons]
  case cons a before ih =>
    rw [mem_cons, not_or] at h
    rw [cons_append, idxOf?_cons, if_neg (by simpa using fun heq => h.1 heq.symm), ih h.2]
    rfl

theorem findOscTerminator_none (h : findOscTerminator (introducer ++ tail) = none) :
    bel ∉ tail ∧ ¬ stringTerminator <:+: tail := by
  rw [findOscTerminator, Option.or_eq_none_iff, Option.map_eq_none_iff, Option.map_eq_none_iff,
    idxOf?_eq_none_iff] at h
  exact ⟨fun hmem => h.1 (mem_append_right _ hmem), findSubsequence_eq_none (by decide) h.2⟩

theorem findOscTerminator_some (h : findOscTerminator (introducer ++ tail) = some found) :
    ∃ inner terminator after, tail = inner ++ terminator ++ after ∧
      found = (inner.length + 2, terminator.length) ∧
      (terminator = [bel] ∨ terminator = stringTerminator ∧ ¬ stringTerminator <:+: inner) ∧
      bel ∉ inner := by
  by_cases hbel : bel ∈ tail
  case pos =>
    obtain ⟨inner, after, rfl, hfirst⟩ := eq_append_cons_of_mem hbel
    have hnot : bel ∉ introducer ++ inner := by
      rw [mem_append, not_or]
      exact ⟨by decide, hfirst⟩
    rw [findOscTerminator, ← append_assoc, idxOf?_first hnot] at h
    cases h
    refine ⟨inner, [bel], after, by simp, ?_, .inl rfl, hfirst⟩
    rfl
  case neg =>
    have hnot : bel ∉ introducer ++ tail := by
      rw [mem_append, not_or]
      exact ⟨by decide, hbel⟩
    rw [findOscTerminator, idxOf?_eq_none_iff.mpr hnot, Option.map_none, Option.none_or,
      Option.map_eq_some_iff] at h
    obtain ⟨n, hn, rfl⟩ := h
    obtain ⟨inner, after, htail, rfl, hfirst⟩ := findSubsequence_eq_some (by decide) hn
    have htail : tail = inner ++ stringTerminator ++ after := htail
    refine ⟨inner, stringTerminator, after, htail, rfl, .inr ⟨rfl, fun hinside => ?_⟩, fun hmem => ?_⟩
    · exact hfirst (hinside.trans (prefix_append _ _).isInfix)
    · rw [htail] at hbel
      exact hbel (by simp [hmem])

end Search

namespace Mode

variable {mode : Mode}

-- Outside of sequences nothing is lost, up to an escape that may become an introducer.
theorem run_text (hmode : mode = ground ∨ mode = escape) (h : ¬ introducer <:+: mode.held ++ text) :
    (run read mode text).1 ++ (run read mode text).2.held.map .byte =
      (mode.held ++ text).map .byte ∧
    ((run read mode text).2 = ground ∨ (run read mode text).2 = escape) := by
  induction text generalizing mode
  case nil => exact ⟨by simp [run], hmode⟩
  case cons b text ih =>
    rcases hmode with rfl | rfl
    · by_cases hesc : b = esc
      case pos =>
        subst hesc
        exact ih (.inr rfl) h
      case neg =>
        have hlater := ih (.inl rfl) (fun hinside => h (infix_cons hinside))
        rw [run, read, if_neg hesc]
        exact ⟨congrArg (List.cons (Piece.byte b)) hlater.1, hlater.2⟩
    · by_cases hbracket : b = bracket
      case pos =>
        subst hbracket
        exact absurd (prefix_append introducer text).isInfix h
      case neg =>
        by_cases hesc : b = esc
        case pos =>
          subst hesc
          have hlater := ih (.inr rfl) (fun hinside => h (infix_cons hinside))
          exact ⟨congrArg (List.cons (Piece.byte esc)) hlater.1, hlater.2⟩
        case neg =>
          have hlater := ih (.inl rfl) (fun hinside => h (infix_cons (infix_cons hinside)))
          rw [run, read, if_neg hbracket, if_neg hesc]
          exact ⟨congrArg (List.append [Piece.byte esc, Piece.byte b]) hlater.1, hlater.2⟩

theorem run_introducer (h : ¬ introducer <:+: text ++ [esc]) :
    run read ground (text ++ introducer) = (text.map .byte, payload []) := by
  have htext := run_text (.inl rfl)
    (fun hinside => h (hinside.trans (prefix_append text [esc]).isInfix) :
      ¬ introducer <:+: ground.held ++ text)
  rw [run_append]
  rcases htext with ⟨hpieces, hmode | hmode⟩
  · rw [hmode] at hpieces ⊢
    rw [← show _ = text.map Piece.byte from hpieces]
    rfl
  · rw [hmode] at hpieces ⊢
    rw [← show _ = text.map Piece.byte from hpieces]
    rfl

-- What has been read of a sequence behind its introducer.
def Content (mode : Mode) (x : Bytes) : Prop :=
  mode = payload x ∨ ∃ y, mode = payloadEscape y ∧ x = y ++ [esc]

section

variable (h : mode.Content x)
include h

theorem Content.held : mode.held = introducer ++ x := by
  rcases h with rfl | ⟨y, rfl, rfl⟩
  · rfl
  · exact append_assoc _ _ _

theorem Content.ne_escape : mode ≠ escape := by
  rcases h with rfl | ⟨y, rfl, rfl⟩
  · exact nofun
  · exact nofun

theorem Content.read (hbel : b ≠ bel) (hend : ¬ stringTerminator <:+: x ++ [b]) :
    (mode.read b).1 = [] ∧ (mode.read b).2.Content (x ++ [b]) := by
  rcases h with rfl | ⟨y, rfl, rfl⟩
  · rw [Mode.read, if_neg hbel]
    split
    case isTrue hesc => exact ⟨rfl, .inr ⟨x, rfl, by rw [hesc]⟩⟩
    case isFalse => exact ⟨rfl, .inl rfl⟩
  · have hback : b ≠ backslash := by
      rintro rfl
      apply hend
      rw [append_assoc]
      exact (suffix_append y stringTerminator).isInfix
    rw [Mode.read, if_neg hbel, if_neg hback]
    split
    case isTrue hesc => exact ⟨rfl, .inr ⟨y ++ [esc], rfl, by rw [hesc]⟩⟩
    case isFalse => exact ⟨rfl, .inl (by rw [append_assoc]; rfl)⟩

theorem Content.run (hbel : bel ∉ text)
    (hend : ¬ stringTerminator <:+: x ++ text) :
    (run Mode.read mode text).1 = [] ∧ (run Mode.read mode text).2.Content (x ++ text) := by
  induction text generalizing mode x
  case nil => exact ⟨rfl, by rwa [append_nil]⟩
  case cons b text ih =>
    rw [mem_cons, not_or] at hbel
    rw [append_cons] at hend ⊢
    obtain ⟨hnone, hcontent⟩ := h.read (fun heq => hbel.1 heq.symm)
      (fun hinside => hend (hinside.trans (prefix_append _ text).isInfix))
    obtain ⟨hlater, hcontent'⟩ := ih hcontent hbel.2 hend
    rw [Mealy.run, hnone, nil_append]
    exact ⟨hlater, hcontent'⟩

theorem Content.run_terminator (hterminator : terminator = [bel] ∨ terminator = stringTerminator) :
    Mealy.run Mode.read mode terminator = ([.sequence x terminator], ground) := by
  rcases h with rfl | ⟨y, rfl, rfl⟩ <;> rcases hterminator with rfl | rfl <;> rfl

end

variable {inner : Bytes}

theorem run_sequence (hbel : bel ∉ inner)
    (hend : ¬ stringTerminator <:+: inner)
    (hterminator : terminator = [bel] ∨ terminator = stringTerminator) :
    run read (payload []) (inner ++ terminator) = ([.sequence inner terminator], ground) := by
  obtain ⟨hnone, hcontent⟩ := Content.run (.inl rfl : (payload []).Content []) hbel hend
  rw [run_append, hnone, hcontent.run_terminator hterminator]
  rfl

theorem read_bytes (mode : Mode) (b : UInt8) :
    (mode.read b).1.flatMap Piece.bytes ++ (mode.read b).2.held = mode.held ++ [b] := by
  cases mode
  case ground =>
    rw [read]
    split
    case isTrue h => rw [h]; rfl
    case isFalse => rfl
  case escape =>
    rw [read]
    split
    case isTrue h => rw [h]; rfl
    split
    case isTrue h => rw [h]; rfl
    case isFalse => rfl
  case payload inner =>
    rw [read]
    split
    case isTrue h => simp [h, held, Piece.bytes]
    case isFalse => split <;> simp_all [held]
  case payloadEscape inner =>
    rw [read]
    split
    case isTrue h => simp [h, held, Piece.bytes]
    split
    case isTrue h => simp [h, held, Piece.bytes, stringTerminator]
    case isFalse => split <;> simp_all [held]

theorem run_bytes (bytes : Bytes) :
    (run read ground bytes).1.flatMap Piece.bytes ++ (run read ground bytes).2.held = bytes := by
  refine @run_relation _ _ _ read ground (fun bytes pieces mode =>
    pieces.flatMap Piece.bytes ++ mode.held = bytes) ?_ bytes [] [] rfl
  rintro _ pieces mode b rfl
  rw [flatMap_append, append_assoc, read_bytes, append_assoc]

theorem read_cases (mode : Mode) (b : UInt8) :
    (mode.read b).1 = [] ∨ (mode.read b).2 = ground ∨ (mode.read b).2 = escape := by
  cases mode <;> simp only [read] <;> split_ifs <;> simp

theorem run_held (bytes : Bytes) :
    run read ground (run read ground bytes).2.held = ([], (run read ground bytes).2) := by
  refine @run_relation _ _ _ read ground (fun _ _ mode => run read ground mode.held = ([], mode))
    ?_ bytes [] [] rfl
  intro _ _ mode b h
  rcases read_cases mode b with hnone | hground | hescape
  · have hheld := read_bytes mode b
    rw [hnone, flatMap_nil, nil_append] at hheld
    rw [hheld, run_append, h, run_singleton, hnone]
    rfl
  · rw [hground]
    rfl
  · rw [hescape]
    rfl

end Mode

-- Bytes without a terminator among them.
structure Free (inner : Bytes) : Prop where
  bel : bel ∉ inner
  stringTerminator : ¬ stringTerminator <:+: inner

theorem Free.snoc {inner : Bytes} (h : Free inner) (hbel : b ≠ Osc.bel)
    (hend : ¬ (b = backslash ∧ [esc] <:+ inner)) : Free (inner ++ [b]) := by
  constructor
  · rw [mem_append, mem_singleton, not_or]
    exact ⟨h.bel, fun heq => hbel heq.symm⟩
  · rw [infix_concat_iff, suffix_concat_iff]
    rintro ((hnil | ⟨before, heq, hsuffix⟩) | hinside)
    · cases hnil
    · have hparts := @List.append_inj' _ [esc] [backslash] before [b] heq rfl
      rw [← hparts.1] at hsuffix
      exact hend ⟨(singleton_inj.mp hparts.2).symm, hsuffix⟩
    · exact h.stringTerminator hinside

-- A sequence that ends at its first terminator.
structure Exact (inner terminator : Bytes) : Prop where
  free : Free inner
  terminator : terminator = [bel] ∨ terminator = stringTerminator

variable {mode : Mode}

namespace Mode

def Sound : Mode → Prop
  | payload inner => Free inner ∧ ¬ [esc] <:+ inner
  | payloadEscape inner => Free inner
  | _ => True

theorem not_suffix_snoc {inner : Bytes} (h : b ≠ esc) : ¬ [esc] <:+ inner ++ [b] := by
  rintro ⟨before, heq⟩
  exact h (singleton_inj.mp (List.append_inj' heq rfl).2).symm

theorem Sound.read (h : mode.Sound) (b : UInt8) :
    (mode.read b).2.Sound ∧
      ∀ inner terminator, .sequence inner terminator ∈ (mode.read b).1 → Exact inner terminator := by
  cases mode
  case ground =>
    rw [Mode.read]
    split <;> exact ⟨trivial, by simp⟩
  case escape =>
    have hempty : Free [] := ⟨by simp, by decide⟩
    rw [Mode.read]
    split
    case isTrue => exact ⟨⟨hempty, by decide⟩, by simp⟩
    case isFalse => split <;> exact ⟨trivial, by simp⟩
  case payload inner =>
    rw [Mode.read]
    split
    case isTrue =>
      refine ⟨trivial, fun inner' terminator hmem => ?_⟩
      cases mem_singleton.mp hmem
      exact ⟨h.1, .inl rfl⟩
    case isFalse hbel =>
      split
      case isTrue => exact ⟨h.1, by simp⟩
      case isFalse hesc =>
        exact ⟨⟨h.1.snoc hbel fun hend => h.2 hend.2, not_suffix_snoc hesc⟩, by simp⟩
  case payloadEscape inner =>
    have hescape : Free (inner ++ [esc]) := Free.snoc h (by decide) fun hend => absurd hend.1 (by decide)
    rw [Mode.read]
    split
    case isTrue =>
      refine ⟨trivial, fun inner' terminator hmem => ?_⟩
      cases mem_singleton.mp hmem
      exact ⟨hescape, .inl rfl⟩
    case isFalse hbel =>
      split
      case isTrue =>
        refine ⟨trivial, fun inner' terminator hmem => ?_⟩
        cases mem_singleton.mp hmem
        exact ⟨h, .inr rfl⟩
      case isFalse hback =>
        split
        case isTrue => exact ⟨hescape, by simp⟩
        case isFalse hesc =>
          rw [append_cons]
          exact ⟨⟨hescape.snoc hbel fun hend => hback hend.1, not_suffix_snoc hesc⟩, by simp⟩

theorem run_exact {inner : Bytes} (bytes : Bytes)
    (h : .sequence inner terminator ∈ (run read ground bytes).1) : Exact inner terminator := by
  have hrun : (∀ inner terminator, .sequence inner terminator ∈ [] ++ (run read ground bytes).1 →
      Exact inner terminator) ∧ (run read ground bytes).2.Sound := by
    refine @run_relation _ _ _ read ground (fun _ pieces mode =>
      (∀ inner terminator, .sequence inner terminator ∈ pieces → Exact inner terminator) ∧ mode.Sound)
      ?_ bytes [] [] ⟨by simp, trivial⟩
    rintro _ pieces mode b ⟨hpieces, hsound⟩
    refine ⟨fun inner terminator hmem => ?_, (hsound.read b).1⟩
    rcases mem_append.mp hmem with hmem | hmem
    · exact hpieces inner terminator hmem
    · exact (hsound.read b).2 inner terminator hmem
  exact hrun.1 inner terminator h

-- The stripper passes on an escape at the end, which could become an introducer, and holds the rest.
def settle (outcome : List Piece × Mode) : List Piece × Bytes :=
  if outcome.2 = escape then (outcome.1 ++ [.byte esc], []) else (outcome.1, outcome.2.held)

theorem settle_append (pieces later : List Piece) (mode : Mode) :
    settle (pieces ++ later, mode) = (pieces ++ (settle (later, mode)).1, (settle (later, mode)).2) := by
  rw [settle, settle]
  split
  case isTrue => exact congrArg (·, []) (append_assoc _ _ _)
  case isFalse => rfl

end Mode

def Piece.endsWithString : Piece → Bool
  | .sequence _ terminator => terminator = stringTerminator
  | _ => false

-- No bell stands behind a sequence that ends with a string terminator.
def Mode.isOrdered (mode : Mode) : Bytes → Bool
  | [] => true
  | b :: bytes =>
    (bel ∉ bytes ∨ ¬ (mode.read b).1.any Piece.endsWithString) ∧ isOrdered (mode.read b).2 bytes

namespace Mode

variable {bytes later inner : Bytes}

theorem not_mem_of_isOrdered (h : mode.isOrdered (bytes ++ later))
    (hpiece : .sequence inner stringTerminator ∈ (run read mode bytes).1) : bel ∉ later := by
  induction bytes generalizing mode
  case nil => cases hpiece
  case cons b bytes ih =>
    rw [cons_append, isOrdered, decide_eq_true_iff] at h
    rcases mem_append.mp hpiece with hpiece | hpiece
    · refine fun hmem => h.1.elim (fun hnot => hnot (mem_append_right _ hmem)) fun hnone => hnone ?_
      exact any_eq_true.mpr ⟨_, hpiece, rfl⟩
    · exact ih h.2 hpiece

theorem isOrdered_drop (h : mode.isOrdered (bytes ++ later)) :
    (run read mode bytes).2.isOrdered later := by
  induction bytes generalizing mode
  case nil => exact h
  case cons b bytes ih =>
    rw [cons_append, isOrdered, decide_eq_true_iff] at h
    exact ih h.2

theorem isOrdered_append (hnone : (run read mode bytes).1 = [])
    (h : (run read mode bytes).2.isOrdered later) : mode.isOrdered (bytes ++ later) := by
  induction bytes generalizing mode
  case nil => exact h
  case cons b bytes ih =>
    obtain ⟨hnil, hrest⟩ := append_eq_nil_iff.mp hnone
    rw [cons_append, isOrdered, decide_eq_true_iff]
    exact ⟨.inr (by simp [hnil]), ih hrest h⟩

theorem isOrdered_ground (h : escape.isOrdered bytes) (hcut : bytes.head? ≠ some bracket) :
    ground.isOrdered bytes := by
  cases bytes
  case nil => rfl
  case cons b bytes =>
    have hbracket : b ≠ bracket := fun heq => hcut (congrArg some heq)
    rw [isOrdered, decide_eq_true_iff] at h ⊢
    rw [Mode.read, if_neg hbracket] at h
    rw [Mode.read]
    split at h
    case isTrue hesc => exact ⟨.inr (by simp [hesc]), by simpa [hesc] using h.2⟩
    case isFalse hesc => exact ⟨.inr (by simp [hesc, Piece.endsWithString]), by simpa [hesc] using h.2⟩

-- The first terminator is the bell.
theorem not_infix_of_isOrdered (h : (payload []).isOrdered (inner ++ bel :: later))
    (hbel : bel ∉ inner) : ¬ stringTerminator <:+: inner := by
  intro hinside
  cases hfind : findSubsequence stringTerminator inner
  case none => exact findSubsequence_eq_none (by decide) hfind hinside
  case some n =>
    obtain ⟨x, rest, rfl, -, hfirst⟩ := findSubsequence_eq_some (by decide) hfind
    have hx : ¬ stringTerminator <:+: x := fun hinner =>
      hfirst (hinner.trans (prefix_append x [esc]).isInfix)
    have hrun := run_sequence (fun hmem => hbel (by simp [hmem])) hx (.inr rfl)
    rw [append_assoc] at h
    exact not_mem_of_isOrdered h (by rw [hrun]; exact mem_singleton.mpr rfl) (by simp)

end Mode

section Drain

open Mode

variable {chunk : Bytes}

theorem drain_eq (hrounds : buf.length < rounds) (hordered : ground.isOrdered buf)
    (hheld : (run read ground buf).2.held.length ≤ maxOscBuf) :
    drain rounds buf = settle (run read ground buf) := by
  induction rounds generalizing buf
  case zero => exact absurd hrounds (Nat.not_lt_zero _)
  case succ rounds ih =>
    rw [drain]
    cases hfind : findSubsequence introducer buf
    case none =>
      obtain ⟨hpieces, hmode⟩ := run_text (.inl rfl)
        (findSubsequence_eq_none (by decide) hfind : ¬ introducer <:+: ground.held ++ buf)
      rw [settle]
      rcases hmode with hmode | hmode
      · rw [hmode] at hpieces ⊢
        rw [if_neg (by decide), ← show _ = buf.map Piece.byte from hpieces]
        simp [held]
      · rw [hmode] at hpieces ⊢
        rw [if_pos rfl, ← show _ = buf.map Piece.byte from hpieces]
        rfl
    case some escPos =>
      obtain ⟨text, tail, rfl, rfl, hnone⟩ := findSubsequence_eq_some (by decide) hfind
      have hdrop : (text ++ introducer ++ tail).drop text.length = introducer ++ tail := by
        rw [append_assoc, drop_left]
      have htake : (text ++ introducer ++ tail).take text.length = text := by
        rw [append_assoc, take_left]
      have hordered := isOrdered_drop hordered
      rw [run_introducer hnone] at hordered
      rw [run_append, run_introducer hnone] at hheld ⊢
      dsimp only at hordered hheld ⊢
      rw [hdrop, htake]
      cases hend : findOscTerminator (introducer ++ tail)
      case none =>
        obtain ⟨hbel, hst⟩ := findOscTerminator_none hend
        obtain ⟨hnil, hcontent⟩ := Content.run (.inl rfl : (payload []).Content []) hbel hst
        rw [hcontent.held] at hheld
        rw [settle, if_neg hcontent.ne_escape, hnil, hcontent.held, append_nil]
        exact if_neg (Nat.not_lt.mpr hheld)
      case some found =>
        obtain ⟨inner, terminator, after, rfl, rfl, hterminator, hbel⟩ := findOscTerminator_some hend
        have hinner : ((introducer ++ (inner ++ terminator ++ after)).take (inner.length + 2)).drop 2 =
            inner := by
          simp [introducer]
        have hterm : ((introducer ++ (inner ++ terminator ++ after)).drop (inner.length + 2)).take
            terminator.length = terminator := by
          simp [introducer]
        have hafter : (introducer ++ (inner ++ terminator ++ after)).drop
            (inner.length + 2 + terminator.length) = after := by
          rw [← drop_drop]
          simp [introducer]
        dsimp only
        rw [hinner, hterm, hafter]
        have hst : ¬ stringTerminator <:+: inner := by
          rcases hterminator with rfl | ⟨rfl, hst⟩
          · rw [append_assoc] at hordered
            exact not_infix_of_isOrdered hordered hbel
          · exact hst
        have hsequence := run_sequence hbel hst (hterminator.imp_right And.left)
        have hordered := isOrdered_drop hordered
        rw [hsequence] at hordered
        rw [run_append, hsequence] at hheld ⊢
        have hlater := @ih after (by simp [introducer] at hrounds; omega) hordered hheld
        rw [hlater]
        dsimp only
        rw [settle_append, settle_append]
        rfl

theorem pieces_eq_drain : pieces buf chunk = drain ((buf ++ chunk).length + 1) (buf ++ chunk) := by
  rw [pieces]
  split
  case isTrue h => rw [drain, h.2]
  case isFalse => rfl

theorem pieces_eq (hordered : ground.isOrdered (buf ++ chunk))
    (hheld : (run read ground (buf ++ chunk)).2.held.length ≤ maxOscBuf) :
    pieces buf chunk = settle (run read ground (buf ++ chunk)) := by
  rw [pieces_eq_drain]
  exact drain_eq (Nat.lt_succ_self _) hordered hheld

theorem run_escape (hcut : chunk.head? ≠ some bracket) (hne : chunk ≠ []) :
    run read escape chunk = (.byte esc :: (run read ground chunk).1, (run read ground chunk).2) := by
  cases chunk
  case nil => exact absurd rfl hne
  case cons b chunk =>
    have hbracket : b ≠ bracket := fun heq => hcut (congrArg some heq)
    rw [run, run, Mode.read, Mode.read, if_neg hbracket]
    split <;> rfl

-- The mode behind some bytes.
def Reached (mode : Mode) : Prop :=
  ∃ bytes, (run read ground bytes).2 = mode

theorem Reached.run (h : Reached mode) (chunk : Bytes) :
    Reached (Mealy.run read mode chunk).2 := by
  obtain ⟨bytes, rfl⟩ := h
  exact ⟨bytes ++ chunk, by rw [run_append]⟩

theorem pieces_settle (h : Reached mode) (hcut : mode = escape → chunk.head? ≠ some bracket)
    (hordered : mode.isOrdered chunk)
    (hheld : (run read mode chunk).2.held.length ≤ maxOscBuf) :
    settle (run read mode chunk) =
      ((settle ([], mode)).1 ++ (pieces (settle ([], mode)).2 chunk).1,
        (pieces (settle ([], mode)).2 chunk).2) := by
  by_cases hescape : mode = escape
  case pos =>
    subst hescape
    by_cases hnil : chunk = []
    case pos => subst hnil; decide
    rw [run_escape (hcut rfl) hnil] at hheld ⊢
    have hground : ground.isOrdered ((settle ([], escape)).2 ++ chunk) :=
      isOrdered_ground hordered (hcut rfl)
    rw [pieces_eq hground hheld]
    exact settle_append [.byte esc] _ _
  case neg =>
    have hstart : settle ([], mode) = ([], mode.held) := if_neg hescape
    have hmode : run read ground mode.held = ([], mode) := by
      obtain ⟨bytes, rfl⟩ := h
      exact run_held bytes
    have hrun : run read ground (mode.held ++ chunk) = run read mode chunk := by
      rw [run_append, hmode]
      rfl
    have hground : ground.isOrdered (mode.held ++ chunk) :=
      isOrdered_append (by rw [hmode]) (by rwa [hmode])
    rw [hstart, pieces_eq hground (by rwa [hrun]), hrun]
    rfl

end Drain

-- Output that is divided into chunks: no introducer is cut behind its escape, and no chunk has a bell
-- behind a string terminator that ends a sequence.
def Clean (mode : Mode) : List Bytes → Prop
  | [] => True
  | chunk :: chunks =>
    (mode = .escape → chunk.head? ≠ some bracket) ∧ mode.isOrdered chunk ∧
      Clean (run Mode.read mode chunk).2 chunks

-- The pending part stays within the limit.
def Bounded (mode : Mode) : List Bytes → Prop
  | [] => True
  | chunk :: chunks =>
    (run Mode.read mode chunk).2.held.length ≤ maxOscBuf ∧
      Bounded (run Mode.read mode chunk).2 chunks

-- What is seen of results: everything but the division of the visible bytes by ready markers.
structure Seen where
  visible : Bytes
  cwdPaths : List String
  ready : Bool
  acceptedCommands : List String
  shellIdentities : List ShellIdentity
  deriving DecidableEq

namespace Seen

def empty : Seen :=
  ⟨[], [], false, [], []⟩

def append (first second : Seen) : Seen :=
  ⟨first.visible ++ second.visible, first.cwdPaths ++ second.cwdPaths, first.ready || second.ready,
    first.acceptedCommands ++ second.acceptedCommands, first.shellIdentities ++ second.shellIdentities⟩

def concat (all : List Seen) : Seen :=
  all.foldr append empty

-- Bytes that are held count as visible.
def hold (seen : Seen) (held : Bytes) : Seen :=
  seen.append { empty with visible := held }

theorem append_assoc (first second third : Seen) :
    (first.append second).append third = first.append (second.append third) := by
  simp [append, Bool.or_assoc]

theorem append_hold (first second : Seen) (held : Bytes) :
    (first.append second).hold held = first.append (second.hold held) :=
  append_assoc _ _ _

theorem append_empty (seen : Seen) : seen.append empty = seen := by
  simp [append, empty]

theorem concat_append (first second : List Seen) :
    concat (first ++ second) = (concat first).append (concat second) := by
  induction first
  case nil => rfl
  case cons seen first ih =>
    rw [cons_append, concat, concat, foldr_cons, foldr_cons, append_assoc]
    exact congrArg seen.append ih

end Seen

def OscResult.seen (result : OscResult) : Seen :=
  ⟨result.visible, result.cwdPaths, result.ready, result.acceptedCommands, result.shellIdentities⟩

def Report.seen : Report → Seen
  | .cwd path => { Seen.empty with cwdPaths := path.toList }
  | .ready => { Seen.empty with ready := true }
  | .foreign => Seen.empty
  | .shell identity => { Seen.empty with shellIdentities := identity.toList }
  | .command text => { Seen.empty with acceptedCommands := [text] }

-- A private sequence is seen by its report, and everything else by its bytes.
def Piece.seen (markers : Markers) (piece : Piece) : Seen :=
  match piece.report markers with
  | some report => report.seen
  | none => { Seen.empty with visible := piece.bytes }

namespace OscResult

section

variable (result : OscResult)
include result

theorem seen_extend (bytes : Bytes) :
    (result.extend bytes).seen = result.seen.append { Seen.empty with visible := bytes } := by
  simp [extend, seen, Seen.append, Seen.empty]

theorem seen_addReport (report : Report) :
    (result.addReport report).seen = result.seen.append report.seen := by
  cases report <;> simp [addReport, seen, Seen.append, Seen.empty, Report.seen]

theorem seen_add (piece : Piece) :
    (result.add markers piece).seen = result.seen.append (piece.seen markers) := by
  cases piece
  case byte b => exact seen_extend result [b]
  case overflow b => simp [add, seen, Seen.append, Seen.empty, Piece.seen, Piece.report, Piece.bytes]
  case sequence inner terminator =>
    rw [add, Piece.seen, Piece.report]
    cases markers.report inner
    case some report => exact seen_addReport result report
    case none => exact seen_extend result _

theorem seen_foldl (pieces : List Piece) :
    (pieces.foldl (add markers) result).seen =
      result.seen.append (.concat (pieces.map (Piece.seen markers))) := by
  induction pieces generalizing result
  case nil => exact (Seen.append_empty _).symm
  case cons piece pieces ih =>
    rw [foldl_cons, ih, seen_add, Seen.append_assoc]
    rfl

end

end OscResult

theorem seen_push : (push markers buf chunk).1.seen =
    .concat ((pieces buf chunk).1.map (Piece.seen markers)) := by
  rw [push, OscResult.seen_foldl]
  rfl

theorem hold_settle (pieces : List Piece) (mode : Mode) :
    (Seen.concat ((Mode.settle (pieces, mode)).1.map (Piece.seen markers))).hold
      (Mode.settle (pieces, mode)).2 =
    (Seen.concat (pieces.map (Piece.seen markers))).hold mode.held := by
  rw [Mode.settle]
  split
  case isTrue h =>
    cases h
    rw [map_append, Seen.concat_append, Seen.hold, Seen.append_assoc]
    rfl
  case isFalse => rfl

theorem seen_pushAll (chunks : List Bytes) (h : Reached mode) (hbounded : Bounded mode chunks)
    (hclean : Clean mode chunks) :
    (Seen.concat ((Mode.settle ([], mode)).1.map (Piece.seen markers))).append
      ((Seen.concat ((pushAll markers (Mode.settle ([], mode)).2 chunks).1.map OscResult.seen)).hold
        (pushAll markers (Mode.settle ([], mode)).2 chunks).2) =
    (Seen.concat ((run Mode.read mode chunks.flatten).1.map (Piece.seen markers))).hold
      (run Mode.read mode chunks.flatten).2.held := by
  induction chunks generalizing mode
  case nil => exact hold_settle [] mode
  case cons chunk chunks ih =>
    obtain ⟨hheld, hbounded⟩ := hbounded
    obtain ⟨hcut, hordered, hclean⟩ := hclean
    have hlater := ih (h.run chunk) hbounded hclean
    have hchunk := pieces_settle h hcut hordered hheld
    have hsettle := Mode.settle_append (run Mode.read mode chunk).1 [] (run Mode.read mode chunk).2
    rw [append_nil, hchunk, Prod.mk.injEq] at hsettle
    have hpieces := congrArg (fun pieces => Seen.concat (pieces.map (Piece.seen markers))) hsettle.1
    rw [map_append, map_append, Seen.concat_append, Seen.concat_append] at hpieces
    rw [← hsettle.2] at hlater
    rw [flatten_cons, run_append, map_append, Seen.concat_append, Seen.append_hold, ← hlater,
      ← Seen.append_assoc, ← hpieces, Seen.append_assoc, ← seen_push]
    exact congrArg _ (Seen.append_hold _ _ _)

-- The visible output with the held bytes is the stream without its private sequences, each of which
-- ends at its first terminator, and the reports are those of these sequences, however the stream is
-- divided.
theorem stripping_is_exact (markers : Markers) (chunks : List Bytes) (hbounded : Bounded .ground chunks)
    (hclean : Clean .ground chunks) :
    (Seen.concat ((pushAll markers [] chunks).1.map OscResult.seen)).hold (pushAll markers [] chunks).2 =
      (Seen.concat ((run Mode.read .ground chunks.flatten).1.map (Piece.seen markers))).hold
        (run Mode.read .ground chunks.flatten).2.held ∧
    (run Mode.read .ground chunks.flatten).1.flatMap Piece.bytes ++
      (run Mode.read .ground chunks.flatten).2.held = chunks.flatten ∧
    ∀ inner terminator, .sequence inner terminator ∈ (run Mode.read .ground chunks.flatten).1 →
      Exact inner terminator := by
  refine ⟨?_, Mode.run_bytes _, fun inner terminator h => Mode.run_exact _ h⟩
  exact seen_pushAll chunks ⟨[], rfl⟩ hbounded hclean

-- The marker of another session, cut behind the first byte of it.
theorem stripping_is_exact_of_cut_marker :
    (Seen.concat ((pushAll ⟨[], none⟩ []
      [introducer ++ [55], readyMarkerPrefix.drop 1 ++ [bel]]).1.map OscResult.seen)).hold
      (pushAll ⟨[], none⟩ [] [introducer ++ [55], readyMarkerPrefix.drop 1 ++ [bel]]).2 = Seen.empty :=
  (stripping_is_exact ⟨[], none⟩ [introducer ++ [55], readyMarkerPrefix.drop 1 ++ [bel]]
    ⟨by decide, by decide, trivial⟩ ⟨nofun, by decide, nofun, by decide, trivial⟩).1

-- An introducer that is cut behind its escape is shown with its sequence, and a sequence that ends
-- with a string terminator takes what follows up to a later bell.
theorem stripping_depends_on_division :
    (pushAll ⟨[], none⟩ [] [introducer ++ readyMarkerPrefix ++ [bel]]).1.flatMap OscResult.visible = [] ∧
    (pushAll ⟨[], none⟩ [] [[esc], bracket :: readyMarkerPrefix ++ [bel]]).1.flatMap OscResult.visible =
      introducer ++ readyMarkerPrefix ++ [bel] ∧
    (pushAll ⟨[], none⟩ [] [introducer ++ readyMarkerPrefix ++ stringTerminator ++ [97, bel]]).1.flatMap
      OscResult.visible = [] ∧
    (pushAll ⟨[], none⟩ [] [introducer ++ readyMarkerPrefix ++ stringTerminator, [97, bel]]).1.flatMap
      OscResult.visible = [97, bel] := by
  decide

end NyaTerm.Shell.Osc
