import Mathlib.Data.List.Sort
import Mathlib.Tactic.IntervalCases

open List

namespace Text

-- Lowercase hexadecimal, fixed width.

def hexDigit (n : Nat) : Char :=
  if n < 10 then Char.ofNat (n + 48) else Char.ofNat (n + 87)

def hexValue (c : Char) : Option Nat :=
  if '0' ≤ c ∧ c ≤ '9' then some (c.toNat - 48)
  else if 'a' ≤ c ∧ c ≤ 'f' then some (c.toNat - 87)
  else none

theorem hexValue_hexDigit : ∀ n < 16, hexValue (hexDigit n) = some n := by decide

def isHex (c : Char) : Bool :=
  (hexValue c).isSome

theorem isHex_hexDigit (h : n < 16) : isHex (hexDigit n) := by
  simp [isHex, hexValue_hexDigit n h]

-- The `w` lowest hexadecimal digits of `n`, the highest first.
def toHex : (w : Nat) → (n : Nat) → List Char
  | 0, _ => []
  | w + 1, n => toHex w (n / 16) ++ [hexDigit (n % 16)]

def ofHex (cs : List Char) : Option Nat :=
  cs.foldlM (fun n c => (hexValue c).map (16 * n + ·)) 0

theorem length_toHex : ∀ w n, (toHex w n).length = w
  | 0, _ => rfl
  | w + 1, n => by simp [toHex, length_toHex w]

theorem isHex_toHex : ∀ w n, ∀ c ∈ toHex w n, isHex c
  | 0, _ => by simp [toHex]
  | w + 1, n => by
    simp only [toHex, mem_append, mem_singleton]
    rintro c (hc | rfl)
    · exact isHex_toHex w _ c hc
    · exact isHex_hexDigit (Nat.mod_lt _ (by decide))

theorem ofHex_toHex : ∀ w n, n < 16 ^ w → ofHex (toHex w n) = some n
  | 0, n, h => by
    have : n = 0 := by simpa using h
    simp [toHex, ofHex, this]
  | w + 1, n, h => by
    have hd : n / 16 < 16 ^ w := Nat.div_lt_of_lt_mul (by rwa [Nat.pow_succ, Nat.mul_comm] at h)
    have hi := ofHex_toHex w (n / 16) hd
    simp only [ofHex] at hi
    simp only [toHex, ofHex, foldlM_append, hi, foldlM_cons, foldlM_nil,
      hexValue_hexDigit (n % 16) (Nat.mod_lt _ (by decide)), Option.bind_eq_bind, Option.bind_some,
      Option.map_some, Option.pure_def, Option.some.injEq]
    omega

theorem toHex_injective (hm : m < 16 ^ w) (hn : n < 16 ^ w) (h : toHex w m = toHex w n) :
    m = n := by
  have := ofHex_toHex w m hm
  rw [h, ofHex_toHex w n hn] at this
  exact (Option.some.inj this).symm

-- JSON string literals: quotation marks, reverse solidi and control characters are escaped.

def escapeChar (c : Char) : List Char :=
  if c = '"' then ['\\', '"']
  else if c = '\\' then ['\\', '\\']
  else if c = Char.ofNat 8 then ['\\', 'b']
  else if c = Char.ofNat 9 then ['\\', 't']
  else if c = Char.ofNat 10 then ['\\', 'n']
  else if c = Char.ofNat 12 then ['\\', 'f']
  else if c = Char.ofNat 13 then ['\\', 'r']
  else if c.toNat < 32 then ['\\', 'u', '0', '0', hexDigit (c.toNat / 16), hexDigit (c.toNat % 16)]
  else [c]

def quote (s : List Char) : List Char :=
  '"' :: s.flatMap escapeChar ++ ['"']

-- Reads one possibly escaped character.
def unescapeChar : List Char → Option (Char × List Char)
  | '\\' :: '"' :: cs => some ('"', cs)
  | '\\' :: '\\' :: cs => some ('\\', cs)
  | '\\' :: 'b' :: cs => some (Char.ofNat 8, cs)
  | '\\' :: 't' :: cs => some (Char.ofNat 9, cs)
  | '\\' :: 'n' :: cs => some (Char.ofNat 10, cs)
  | '\\' :: 'f' :: cs => some (Char.ofNat 12, cs)
  | '\\' :: 'r' :: cs => some (Char.ofNat 13, cs)
  | '\\' :: 'u' :: a :: b :: c :: d :: cs =>
    (ofHex [a, b, c, d]).map fun n => (Char.ofNat n, cs)
  | '\\' :: _ => none
  | c :: cs => some (c, cs)
  | [] => none

-- Reads the rest of a string literal up to its closing quotation mark.
def unquote : (fuel : Nat) → List Char → Option (List Char × List Char)
  | 0, _ => none
  | _ + 1, '"' :: cs => some ([], cs)
  | n + 1, cs => do
    let (c, cs) ← unescapeChar cs
    let (s, cs) ← unquote n cs
    return (c :: s, cs)

theorem escapeChar_control : ∀ n < 32, ∀ cs, unescapeChar (escapeChar (Char.ofNat n) ++ cs) =
    some (Char.ofNat n, cs) := by
  intro n hn cs
  interval_cases n <;> rfl

theorem unescapeChar_escapeChar (c : Char) (cs : List Char) :
    unescapeChar (escapeChar c ++ cs) = some (c, cs) := by
  by_cases hc : c.toNat < 32
  case pos => simpa using escapeChar_control c.toNat hc cs
  have hn (n : Nat) (h : n < 32) : c ≠ Char.ofNat n := by
    rintro rfl
    interval_cases n <;> exact hc (by decide)
  unfold escapeChar
  by_cases h₁ : c = '"'
  · subst h₁; rfl
  by_cases h₂ : c = '\\'
  · subst h₂; rfl
  simp only [h₁, h₂, hn 8 (by decide), hn 9 (by decide), hn 10 (by decide), hn 12 (by decide),
    hn 13 (by decide), hc, if_false, cons_append, nil_append]
  unfold unescapeChar
  split <;> simp_all

theorem escapeChar_head (c : Char) : ∃ d ds, escapeChar c = d :: ds ∧ d ≠ '"' := by
  unfold escapeChar
  repeat' split
  all_goals first | exact ⟨_, _, rfl, by decide⟩ | exact ⟨_, _, rfl, ‹_›⟩

theorem unquote_quote (s cs : List Char) (fuel : Nat) (h : s.length < fuel) :
    unquote fuel (s.flatMap escapeChar ++ '"' :: cs) = some (s, cs) := by
  induction s generalizing fuel
  case nil =>
    cases fuel <;> simp at h
    rfl
  case cons c s hi =>
    cases fuel
    case zero => simp at h
    case succ fuel =>
      have hu := unescapeChar_escapeChar c (s.flatMap escapeChar ++ '"' :: cs)
      have ⟨d, ds, hd, hq⟩ := escapeChar_head c
      simp only [flatMap_cons, append_assoc]
      rw [hd, cons_append] at hu ⊢
      rw [unquote]
      · simp only [hu, Option.bind_eq_bind, Option.bind_some]
        simp [hi fuel (by simpa using h)]
      · simpa using hq

def stripLiteral (lit : List Char) (cs : List Char) : Option (List Char) :=
  if lit <+: cs then some (cs.drop lit.length) else none

@[simp]
theorem stripLiteral_append (lit cs : List Char) : stripLiteral lit (lit ++ cs) = some cs := by
  simp [stripLiteral]

-- The text before and after the first occurrence of a separator.
def splitOnce (sep : Char) (cs : List Char) : Option (List Char × List Char) :=
  match cs.dropWhile (· != sep) with
  | [] => none
  | _ :: rest => some (cs.takeWhile (· != sep), rest)

theorem splitOnce_append (h : sep ∉ cs) : splitOnce sep (cs ++ sep :: ds) = some (cs, ds) := by
  have hc : ∀ c ∈ cs, (c != sep) = true := by
    intro c hc
    rw [bne_iff_ne]
    rintro rfl
    exact h hc
  simp [splitOnce, dropWhile_append_of_pos hc, takeWhile_append_of_pos hc]

-- White space in the sense of Unicode.

def isWhitespace (c : Char) : Bool :=
  9 ≤ c.toNat ∧ c.toNat ≤ 13 ∨ 0x2000 ≤ c.toNat ∧ c.toNat ≤ 0x200a ∨
    c.toNat ∈ [0x20, 0x85, 0xa0, 0x1680, 0x2028, 0x2029, 0x202f, 0x205f, 0x3000]

def trim (cs : List Char) : List Char :=
  ((cs.dropWhile isWhitespace).reverse.dropWhile isWhitespace).reverse

-- Items that are blank altogether, or neither start nor end with a blank, are trimmed as a whole.

theorem dropWhile_flatMap {f : α → List β} {p : β → Bool} {q : α → Bool} {l : List α}
    (hq : ∀ a ∈ l, q a → ∀ b ∈ f a, p b) (hn : ∀ a ∈ l, ¬ q a → ∃ b ∈ (f a).head?, ¬ p b) :
    (l.flatMap f).dropWhile p = (l.dropWhile q).flatMap f := by
  induction l
  case nil => rfl
  case cons a l ih =>
    rw [flatMap_cons]
    by_cases h : q a
    case pos =>
      rw [dropWhile_append_of_pos (hq a (by simp) h), dropWhile_cons_of_pos h]
      exact ih (fun b hb => hq b (by simp [hb])) fun b hb => hn b (by simp [hb])
    case neg =>
      have ⟨b, hb, hp⟩ := hn a (by simp) h
      have ⟨bs, he⟩ := head?_eq_some_iff.mp hb
      rw [dropWhile_cons_of_neg h, flatMap_cons, he, cons_append,
        dropWhile_cons_of_neg hp]

theorem trim_flatMap {f : α → List Char} {q : α → Bool} {l : List α}
    (hq : ∀ a ∈ l, q a → ∀ c ∈ f a, isWhitespace c)
    (hn : ∀ a ∈ l, ¬ q a → ∃ c ∈ (f a).head?, ¬ isWhitespace c)
    (hl : ∀ a ∈ l, ¬ q a → ∃ c ∈ (f a).getLast?, ¬ isWhitespace c) :
    trim (l.flatMap f) = ((l.dropWhile q).reverse.dropWhile q).reverse.flatMap f := by
  have hs : ∀ a ∈ (l.dropWhile q).reverse, a ∈ l := by
    intro a ha
    exact (dropWhile_sublist q).subset (mem_reverse.mp ha)
  rw [trim, dropWhile_flatMap hq hn, reverse_flatMap,
    dropWhile_flatMap (q := q) (fun a ha h c hc => hq a (hs a ha) h c (by simpa using hc))
      (fun a ha h => by simpa using hl a (hs a ha) h), reverse_flatMap]
  simp [Function.comp_def]

theorem trimmed_split (q : α → Bool) (l : List α) : ∃ front back,
    l = front ++ ((l.dropWhile q).reverse.dropWhile q).reverse ++ back ∧
    (∀ a ∈ front, q a) ∧ ∀ a ∈ back, q a := by
  refine ⟨l.takeWhile q, ((l.dropWhile q).reverse.takeWhile q).reverse, ?_, ?_, ?_⟩
  · rw [append_assoc, ← reverse_append, takeWhile_append_dropWhile,
      reverse_reverse, takeWhile_append_dropWhile]
  · exact fun a ha => all_eq_true.mp all_takeWhile a ha
  · exact fun a ha => all_eq_true.mp all_takeWhile a (mem_reverse.mp ha)

-- The characters of the category Cc.
def isControl (c : Char) : Bool :=
  c.toNat < 32 ∨ 127 ≤ c.toNat ∧ c.toNat < 160

-- Each occurrence of a character is replaced by a text.
def replace (c : Char) (text : List Char) (cs : List Char) : List Char :=
  cs.flatMap fun d => if d = c then text else [d]

theorem replace_cons (c : Char) (text : List Char) (d : Char) (cs : List Char) :
    replace c text (d :: cs) = replace c text [d] ++ replace c text cs := by
  simp [replace]

end Text
