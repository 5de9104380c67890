import NyaTerm.Tmux.Layout

open List

namespace NyaTerm.Tmux

open Layout

-- What follows a number does not go on with it.
def Stops (rest : Text) : Prop :=
  ∀ c, rest.head? = some c → c.isDigit = false

theorem Stops.cons (h : c.isDigit = false) : Stops (c :: rest) := by
  intro d hd
  cases hd
  exact h

theorem decimal_ne_nil (n : UInt32) : decimal n ≠ [] :=
  Nat.toDigits_ne_nil

theorem decimal_isDigit (h : c ∈ decimal n) : c.isDigit :=
  Nat.isDigit_of_mem_toDigits (by decide) (by decide) h

theorem saturating_foldl (digits : Text) (n : Nat)
    (h : digits.foldl (fun n c => 10 * n + (c.toNat - 48)) n ≤ 4294967295) :
    digits.foldl (fun n c => min (min (n * 10) 4294967295 + (c.toNat - 48)) 4294967295) n =
      digits.foldl (fun n c => 10 * n + (c.toNat - 48)) n := by
  induction digits generalizing n
  case nil => rfl
  case cons c digits ih =>
    have hle : ∀ (l : Text) (m : Nat), m ≤ l.foldl (fun n c => 10 * n + (c.toNat - 48)) m := by
      intro l
      induction l
      case nil => exact fun m => Nat.le_refl m
      case cons d l ih => exact fun m => Nat.le_trans (by omega) (ih (10 * m + (d.toNat - 48)))
    rw [foldl_cons] at h ⊢
    have hn := Nat.le_trans (hle digits _) h
    rw [Nat.mul_comm n 10, Nat.min_eq_left (by omega), Nat.min_eq_left (by omega), ih _ h,
      foldl_cons]

theorem parseU32_decimal (n : UInt32) (h : Stops rest) :
    parseU32 (decimal n ++ rest) = some (n.toNat, rest) := by
  have ht : (decimal n ++ rest).takeWhile Char.isDigit = decimal n := by
    rw [takeWhile_append_of_pos fun c hc => decimal_isDigit hc]
    cases rest
    case nil => rw [takeWhile_nil, append_nil]
    case cons c rest => rw [takeWhile_cons_of_neg (by simp [h c rfl]), append_nil]
  have hv : (decimal n).foldl (fun n c => 10 * n + (c.toNat - 48)) 0 = n.toNat := by
    have := @Nat.ofDigitChars_ten_toDigits n.toNat
    rw [Nat.ofDigitChars] at this
    exact this
  unfold parseU32
  rw [ht, if_neg (decimal_ne_nil n), drop_left, saturating_foldl, hv]
  rw [hv]
  have := n.toNat_lt
  omega

theorem parseU32_decimal_cons (n : UInt32) (h : c.isDigit = false) :
    parseU32 (decimal n ++ c :: rest) = some (n.toNat, c :: rest) :=
  parseU32_decimal n (.cons h)

theorem isDigit_x : 'x'.isDigit = false := by decide

theorem isDigit_comma : ','.isDigit = false := by decide

theorem isDigit_opener (columns : Bool) : (opener columns).isDigit = false := by
  cases columns <;> decide

theorem expect_cons (c : Char) (input : Text) : expect c (c :: input) = some input := by
  rw [expect, head?_cons, if_pos rfl, tail_cons]

section Cell

variable {g : Geometry} {y : Nat} {p q : Text}

theorem parseCell_head_append (g : Geometry) (h : parseU32 p = some (y, [])) (fuel : Nat) :
    ∃ cell, parseCell (fuel + 1) (g.head ++ p) = some (cell, []) := by
  refine ⟨⟨g.width.toNat, g.height.toNat, g.x.toNat, y, none, false, []⟩, ?_⟩
  simp [Geometry.head, parseCell, parseU32_decimal_cons, isDigit_x, isDigit_comma, expect_cons, h]

theorem parseCell_comma (g : Geometry) (h : parseU32 p = some (y, ',' :: q)) (fuel : Nat) :
    parseCell (fuel + 1) (g.head ++ p) = some (⟨g.width.toNat, g.height.toNat, g.x.toNat, y,
      (parseU32 q).map Prod.fst, false, []⟩, ((parseU32 q).map Prod.snd).getD q) := by
  simp [Geometry.head, parseCell, parseU32_decimal_cons, isDigit_x, isDigit_comma, expect_cons, h]
  cases parseU32 q <;> rfl

theorem parseCell_opener (g : Geometry) (h : parseU32 p = some (y, opener columns :: q)) (fuel : Nat) :
    parseCell (fuel + 1) (g.head ++ p) = (parseCells (closer columns) fuel q).map fun r =>
      (⟨g.width.toNat, g.height.toNat, g.x.toNat, y, none, columns, r.1⟩, r.2) := by
  cases columns <;>
    simp [Geometry.head, parseCell, parseU32_decimal_cons, isDigit_x, isDigit_comma, expect_cons, h,
      opener, closer, Option.map_eq_bind]

end Cell

theorem parseCell_leaf (fuel : Nat) (g : Geometry) (pane : UInt32) (hs : Stops rest) :
    parseCell (fuel + 1) ((leaf g pane).text ++ rest) =
      some ((leaf g pane).cell, rest) := by
  rw [text, Geometry.text, append_assoc, append_assoc, cons_append,
    parseCell_comma g (parseU32_decimal_cons _ isDigit_comma), parseU32_decimal _ hs]
  rfl

theorem parseCell_split (fuel : Nat) (columns : Bool) (g : Geometry) (children : List Layout)
    (hc : parseCells (closer columns) fuel
        (texts children ++ closer columns :: rest) =
      some (cells children, rest)) :
    parseCell (fuel + 1) ((split columns g children).text ++ rest) =
      some ((split columns g children).cell, rest) := by
  rw [text, Geometry.text, append_assoc, append_assoc, cons_append, append_assoc,
    parseCell_opener g (parseU32_decimal_cons _ (isDigit_opener columns))]
  simp [hc, cell]

theorem Layout.closer_facts (columns : Bool) :
    (closer columns).isDigit = false ∧ closer columns ≠ ',' := by
  cases columns <;> decide

variable {cell : LayoutCell}

theorem parseCells_last (fuel : Nat) (columns : Bool)
    (hc : parseCell fuel (child ++ closer columns :: rest) = some (cell, closer columns :: rest)) :
    parseCells (closer columns) (fuel + 1) (child ++ closer columns :: rest) =
      some ([cell], rest) := by
  rw [parseCells, hc]
  simp [(closer_facts columns).2]

theorem parseCells_next (fuel : Nat) (closer : Char) {cells : List LayoutCell}
    (hc : parseCell fuel (child ++ ',' :: input) = some (cell, ',' :: input))
    (hs : parseCells closer fuel input = some (cells, rest)) :
    parseCells closer (fuel + 1) (child ++ ',' :: input) = some (cell :: cells, rest) := by
  rw [parseCells, hc]
  simp [hs]

-- Both parsers read what is printed and leave what follows. The fuel goes down by one from a cell
-- to its children and from a child to the next.
theorem parse_texts (fuel : Nat) :
    (∀ (t : Layout) (rest : Text), t.filled → Stops rest → 2 * t.text.length ≤ fuel →
      parseCell fuel (t.text ++ rest) = some (t.cell, rest)) ∧
    ∀ (columns : Bool) (t : Layout) (ts : List Layout) (rest : Text), allFilled (t :: ts) →
      2 * (texts (t :: ts)).length + 1 ≤ fuel →
      parseCells (closer columns) fuel
        (texts (t :: ts) ++ closer columns :: rest) =
      some (cells (t :: ts), rest) := by
  induction fuel
  case zero =>
    refine ⟨fun t rest _ _ hf => ?_, fun columns t ts rest _ hf => by omega⟩
    cases t <;> simp [text] at hf
  case succ fuel ih =>
    refine ⟨fun t rest ht hs hf => ?_, fun columns t ts rest hts hf => ?_⟩
    · cases t
      case leaf g pane => exact parseCell_leaf fuel g pane hs
      case split columns g children =>
        rw [filled, Bool.and_eq_true] at ht
        cases children
        case nil => cases ht.1
        case cons t ts =>
          refine parseCell_split fuel columns g (t :: ts) (ih.2 columns t ts rest ht.2 ?_)
          rw [text] at hf
          simp only [length_append, length_cons, length_nil] at hf
          omega
    · rw [allFilled, Bool.and_eq_true] at hts
      cases ts
      case nil =>
        rw [texts] at hf ⊢
        exact parseCells_last fuel columns
          (ih.1 t _ hts.1 (.cons (closer_facts columns).1) (by omega))
      case cons u us =>
        rw [texts] at hf ⊢
        rw [length_append, length_cons] at hf
        rw [append_assoc, cons_append, cells]
        exact parseCells_next fuel _ (ih.1 t _ hts.1 (.cons isDigit_comma) (by omega))
          (ih.2 columns u us rest hts.2 (by omega))

theorem expect_checksum (hc : ∀ c ∈ checksum, isHexDigit c) :
    expect ',' ((checksum ++ ',' :: input).dropWhile isHexDigit) = some input := by
  rw [dropWhile_append_of_pos hc, dropWhile_cons_of_neg (by decide), expect_cons]

section Cut

-- Either a text stops in the head of a cell and nothing is read, or all of it is read.
def Cut (stopped : Prop) (result : Option (α × Text)) : Prop :=
  stopped ∧ result = none ∨ ¬stopped ∧ ∃ a, result = some (a, [])

variable {g : Geometry} {p q : Text}

theorem not_prefix_append_cons {text : Text} : ¬text ++ c :: q <+: text := by
  intro h
  have := h.length_le
  rw [length_append, length_cons] at this
  omega

theorem prefix_append_cons {text : Text} (h : p <+: text ++ c :: q) :
    p <+: text ∨ ∃ p', p' <+: q ∧ p = text ++ c :: p' := by
  rcases prefix_or_prefix_of_prefix h (prefix_append _ _) with hp | ⟨p, rfl⟩
  · exact .inl hp
  · rw [prefix_append_right_inj] at h
    cases p
    case nil => exact .inl (by simp)
    case cons d p =>
      obtain ⟨rfl, hp⟩ := cons_prefix_cons.mp h
      exact .inr ⟨p, hp, rfl⟩

theorem parseU32_cut (h : p <+: decimal n) : p = [] ∨ ∃ k, parseU32 p = some (k, []) := by
  have ht : p.takeWhile Char.isDigit = p := by
    simpa using @takeWhile_append_of_pos _ _ p [] fun c hc => decimal_isDigit (h.subset hc)
  unfold parseU32
  rw [ht]
  by_cases hp : p = []
  case pos => exact .inl hp
  case neg => exact .inr ⟨_, by rw [if_neg hp, drop_length]⟩

-- A text that stops in a number or right after it, or goes on with what follows it.
theorem decimal_cut (h : p <+: decimal n ++ c :: q) :
    p = [] ∨ (∃ k, parseU32 p = some (k, [])) ∨ ∃ p', p' <+: q ∧ p = decimal n ++ c :: p' :=
  (prefix_append_cons h).elim (fun hp => (parseU32_cut hp).imp_right .inl) fun hp => .inr (.inr hp)

theorem parseCell_head (h : p <+: g.head) (fuel : Nat) : parseCell fuel p = none := by
  cases fuel
  case zero => rw [parseCell]
  case succ fuel =>
    rw [parseCell]
    rcases decimal_cut h with rfl | ⟨k, hw⟩ | ⟨p, hheight, rfl⟩
    · rfl
    · rw [hw]
      rfl
    · simp only [parseU32_decimal_cons, isDigit_x, Option.bind_eq_bind, Option.bind_some, expect_cons]
      rcases decimal_cut hheight with rfl | ⟨k, hh⟩ | ⟨p, hx, rfl⟩
      · rfl
      · rw [hh]
        rfl
      · simp only [parseU32_decimal_cons, isDigit_comma, Option.bind_some, expect_cons]
        rcases decimal_cut hx with rfl | ⟨k, hk⟩ | ⟨p, hend, rfl⟩
        · rfl
        · rw [hk]
          rfl
        · obtain rfl := prefix_nil.mp hend
          simp only [parseU32_decimal_cons, isDigit_comma, Option.bind_some, expect_cons]
          rfl

-- A text stops in the head of a cell, in its last offset or after that.
theorem cut_cell (h : p <+: g.text ++ c :: body) (fuel : Nat) {stops : Text → Prop}
    (hb : ∀ q, q <+: body → q.length < p.length →
      Cut (stops q) (parseCell (fuel + 1) (g.head ++ (decimal g.y ++ c :: q)))) :
    Cut (p <+: g.head ∨ ∃ q, p = g.text ++ c :: q ∧ stops q) (parseCell (fuel + 1) p) := by
  rcases prefix_append_cons h with hp | ⟨q, hq, rfl⟩
  · rcases prefix_or_prefix_of_prefix hp (prefix_append _ _) with hh | ⟨p, rfl⟩
    · exact .inl ⟨.inl hh, parseCell_head hh _⟩
    · rcases parseU32_cut ((prefix_append_right_inj _).mp hp) with rfl | ⟨k, hk⟩
      · rw [append_nil]
        exact .inl ⟨.inl prefix_rfl, parseCell_head prefix_rfl _⟩
      · refine .inr ⟨?_, parseCell_head_append g hk fuel⟩
        rintro (hh | ⟨q, hq, -⟩)
        · cases p
          case nil => cases hk
          case cons => exact not_prefix_append_cons hh
        · exact not_prefix_append_cons (hq ▸ hp)
  · have hn : ¬g.text ++ c :: q <+: g.head := fun hh =>
      not_prefix_append_cons (hh.trans (prefix_append _ _))
    have hstops : (g.text ++ c :: q <+: g.head ∨
        ∃ q', g.text ++ c :: q = g.text ++ c :: q' ∧ stops q') ↔ stops q := by
      simp [hn]
    rw [hstops, Geometry.text, append_assoc]
    exact hb q hq (by simp; omega)

theorem cut_leaf (h : p <+: (leaf g pane).text) (fuel : Nat) :
    Cut ((leaf g pane).stopsInHead p) (parseCell (fuel + 1) p) := by
  have hcut := @cut_cell _ _ _ _ h fuel (fun _ => False) fun q hq _ => .inr ⟨id, ?_⟩
  · simpa [stopsInHead] using hcut
  · rw [parseCell_comma g (parseU32_decimal_cons _ isDigit_comma)]
    rcases parseU32_cut hq with rfl | ⟨k, hk⟩
    · exact ⟨_, rfl⟩
    · exact ⟨_, by rw [hk]; rfl⟩

theorem cut_split (h : p <+: (split columns g children).text) (fuel : Nat)
    (hc : ∀ q, q <+: texts children ++ [closer columns] → q.length < p.length →
      Cut (stopsInHeads children q) (parseCells (closer columns) fuel q)) :
    Cut ((split columns g children).stopsInHead p) (parseCell (fuel + 1) p) := by
  rw [stopsInHead]
  refine cut_cell h fuel fun q hq hl => ?_
  rw [parseCell_opener g (parseU32_decimal_cons _ (isDigit_opener columns))]
  rcases hc q hq hl with ⟨hs, hr⟩ | ⟨hs, cells, hr⟩
  · exact .inl ⟨hs, by rw [hr]; rfl⟩
  · exact .inr ⟨hs, _, by rw [hr]; rfl⟩

variable {columns : Bool} {t : Layout} {ts : List Layout}

theorem cut_first (hp : p <+: t.text) (fuel : Nat) (closer : Char)
    (ht : Cut (t.stopsInHead p) (parseCell fuel p)) :
    Cut (stopsInHeads (t :: ts) p) (parseCells closer (fuel + 1) p) := by
  rw [stopsInHeads, parseCells]
  rcases ht with ⟨hs, hr⟩ | ⟨hs, cell, hr⟩
  · exact .inl ⟨.inl ⟨hp, hs⟩, by rw [hr]; rfl⟩
  · refine .inr ⟨?_, [cell], by rw [hr]; rfl⟩
    rintro (⟨-, h⟩ | ⟨q, rfl, -⟩)
    · exact hs h
    · exact not_prefix_append_cons hp

theorem cut_later {closer : Char}
    (hc : parseCell fuel (t.text ++ ',' :: q) = some (cell, ',' :: q))
    (hs : Cut (stopsInHeads ts q) (parseCells closer fuel q)) :
    Cut (stopsInHeads (t :: ts) (t.text ++ ',' :: q))
      (parseCells closer (fuel + 1) (t.text ++ ',' :: q)) := by
  have hstops : stopsInHeads (t :: ts) (t.text ++ ',' :: q) ↔ stopsInHeads ts q := by
    simp [stopsInHeads, not_prefix_append_cons]
  rw [hstops]
  rcases hs with ⟨hs, hr⟩ | ⟨hs, cells, hr⟩
  · exact .inl ⟨hs, by simp [parseCells, hc, hr]⟩
  · exact .inr ⟨hs, cell :: cells, parseCells_next fuel closer hc hr⟩

-- Every front of what is printed is read up to its end, or stops in the head of a cell.
theorem parse_cut (fuel : Nat) :
    (∀ (t : Layout) (p : Text), t.filled → p <+: t.text → 2 * p.length < fuel →
      Cut (t.stopsInHead p) (parseCell fuel p)) ∧
    ∀ (columns : Bool) (t : Layout) (ts : List Layout) (p : Text), allFilled (t :: ts) →
      p <+: texts (t :: ts) ++ [closer columns] → 2 * p.length + 1 < fuel →
      Cut (stopsInHeads (t :: ts) p) (parseCells (closer columns) fuel p) := by
  induction fuel
  case zero => exact ⟨fun t p _ _ hf => by omega, fun columns t ts p _ _ hf => by omega⟩
  case succ fuel ih =>
    refine ⟨fun t p ht hp hf => ?_, fun columns t ts p hts hp hf => ?_⟩
    · cases t
      case leaf g pane => exact cut_leaf hp fuel
      case split columns g children =>
        rw [filled, Bool.and_eq_true] at ht
        cases children
        case nil => cases ht.1
        case cons t ts =>
          exact cut_split hp fuel fun q hq hl => ih.2 columns t ts q ht.2 hq (by omega)
    · rw [allFilled, Bool.and_eq_true] at hts
      cases ts
      case nil =>
        rw [texts] at hp
        rcases prefix_append_cons hp with hfirst | ⟨q, hq, rfl⟩
        · exact cut_first hfirst fuel _ (ih.1 t p hts.1 hfirst (by omega))
        · obtain rfl := prefix_nil.mp hq
          have hl : t.text.length < (t.text ++ [closer columns]).length := by simp
          have hc := (parse_texts fuel).1 t [closer columns] hts.1 (.cons (closer_facts columns).1) (by omega)
          refine .inr ⟨?_, _, parseCells_last fuel columns hc⟩
          simp [stopsInHeads, not_prefix_append_cons, (closer_facts columns).2]
      case cons u us =>
        rw [texts, append_assoc, cons_append] at hp
        rcases prefix_append_cons hp with hfirst | ⟨q, hq, rfl⟩
        · exact cut_first hfirst fuel _ (ih.1 t p hts.1 hfirst (by omega))
        · have hl : t.text.length + q.length < (t.text ++ ',' :: q).length := by simp
          exact cut_later ((parse_texts fuel).1 t _ hts.1 (.cons isDigit_comma) (by omega))
            (ih.2 columns u us q hts.2 hq (by omega))

end Cut

theorem parseLayout_hexadecimal (h : ∀ c ∈ p, isHexDigit c) : parseLayout p = none := by
  have hd : p.dropWhile isHexDigit = [] := by
    simpa using @dropWhile_append_of_pos _ _ p [] h
  rw [parseLayout, hd]
  rfl

namespace Layout.Sample

-- Two panes side by side.
def panes : Layout :=
  .split true ⟨158, 48, 0, 0⟩ [.leaf ⟨79, 48, 0, 0⟩ 0, .leaf ⟨78, 48, 80, 0⟩ 12]

def checksum : Text :=
  ['b', '2', '5', 'f']

end Layout.Sample

open Layout.Sample

end NyaTerm.Tmux
