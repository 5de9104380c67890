import Mathlib.Data.String.Basic
import NyaTerm.Sync.Schema

open List

-- The text of a JSON document determines the document.
namespace NyaTerm.Json

def isNumberChar (c : Char) : Bool :=
  c.isDigit || ['-', '+', '.', 'e', 'E'].contains c

-- Floats are written with a point or an exponent, so that they do not read as integers.
def WellFormedNumber : Number → Prop
  | .int _ => True
  | .float text => (∀ c ∈ text.toList, isNumberChar c) ∧ ('.' ∈ text.toList ∨ 'e' ∈ text.toList)

mutual

-- The numbers of the document are written as numbers are.
def WellFormed : Json → Prop
  | number n => WellFormedNumber n
  | array values => WellFormedValues values
  | object fields => WellFormedFields fields
  | _ => True

def WellFormedValues : List Json → Prop
  | [] => True
  | v :: vs => v.WellFormed ∧ WellFormedValues vs

def WellFormedFields : List (String × Json) → Prop
  | [] => True
  | (_, v) :: vs => v.WellFormed ∧ WellFormedFields vs

end

section Characters

def chars (v : Json) : List Char :=
  v.toText.toList

-- What follows the first value of an array, and the first member of an object.
def valuesTail : List Json → List Char
  | [] => [']']
  | v :: vs => ',' :: (v.chars ++ valuesTail vs)

def fieldsTail : List (String × Json) → List Char
  | [] => ['\x7d']
  | (name, v) :: vs => ',' :: (Text.quote name.toList ++ ':' :: (v.chars ++ fieldsTail vs))

theorem chars_string (s : String) : (string s).chars = Text.quote s.toList := by
  simp [chars, toText]

theorem chars_nil : (array []).chars = ['[', ']'] := by
  simp [chars, toText, valueTexts]

theorem intercalate_cons (c : Char) (x : List Char) (xs : List (List Char)) :
    [c].intercalate (x :: xs) = x ++ xs.flatMap (c :: ·) := by
  induction xs generalizing x
  case nil => simp
  case cons y ys hi =>
    rw [flatMap_cons, cons_append, ← hi y]
    simp [intercalate]

theorem flatMap_valueTexts (vs : List Json) :
    ((valueTexts vs).map String.toList).flatMap (',' :: ·) ++ [']'] = valuesTail vs := by
  induction vs
  case nil => rfl
  case cons v vs hi => simp [valueTexts, valuesTail, ← hi, chars]

theorem chars_array (v : Json) (vs : List Json) :
    (array (v :: vs)).chars = '[' :: (v.chars ++ valuesTail vs) := by
  rw [← flatMap_valueTexts]
  simp [chars, toText, valueTexts, intercalate_cons]

theorem chars_empty : (object []).chars = ['\x7b', '\x7d'] := by
  simp [chars, toText, fieldTexts]

theorem flatMap_fieldTexts (vs : List (String × Json)) :
    ((fieldTexts vs).map String.toList).flatMap (',' :: ·) ++ ['\x7d'] = fieldsTail vs := by
  induction vs
  case nil => rfl
  case cons v vs hi =>
    simp [fieldTexts, fieldsTail, ← hi, chars]

theorem chars_object (name : String) (v : Json) (vs : List (String × Json)) :
    (object ((name, v) :: vs)).chars =
      '\x7b' :: (Text.quote name.toList ++ ':' :: (v.chars ++ fieldsTail vs)) := by
  rw [← flatMap_fieldTexts]
  simp [chars, toText, fieldTexts, intercalate_cons]

end Characters

section Numbers

theorem toList_repr (n : Nat) : n.repr.toList = Nat.toDigits 10 n := by
  rw [Nat.repr, String.toList_ofList]

theorem toList_toString (n : Int) : (toString n).toList =
    match n with
    | .ofNat m => Nat.toDigits 10 m
    | .negSucc m => '-' :: Nat.toDigits 10 (m + 1) := by
  cases n
  case ofNat m => exact toList_repr m
  case negSucc m => simp [Int.repr]

theorem isDigit_toDigits (h : c ∈ Nat.toDigits 10 n) : c.isDigit :=
  Nat.isDigit_of_mem_toDigits (by decide) (by decide) h

theorem isDigit_of_mem_int {n : Int} (h : c ∈ (toString n).toList) : c.isDigit ∨ c = '-' := by
  rw [toList_toString] at h
  cases n
  case ofNat m => exact .inl (isDigit_toDigits h)
  case negSucc m =>
    rcases mem_cons.mp h with h | h
    · exact .inr h
    · exact .inl (isDigit_toDigits h)

theorem toDigits_injective (h : Nat.toDigits 10 m = Nat.toDigits 10 n) : m = n := by
  rw [← Nat.ofDigitChars_ten_toDigits (n := m), h, Nat.ofDigitChars_ten_toDigits]

theorem int_injective {m : Int} (h : (toString m).toList = (toString n).toList) : m = n := by
  have hs {m : Nat} {cs : List Char} : Nat.toDigits 10 m ≠ '-' :: cs := by
    intro h
    have hd : '-' ∈ Nat.toDigits 10 m := h ▸ .head _ ..
    exact absurd (isDigit_toDigits hd) (by decide)
  rw [toList_toString, toList_toString] at h
  cases m <;> cases n
  case ofNat.ofNat m n => rw [toDigits_injective h]
  case ofNat.negSucc => exact (hs h).elim
  case negSucc.ofNat => exact (hs h.symm).elim
  case negSucc.negSucc m n =>
    have := toDigits_injective (cons.inj h).2
    rw [Nat.succ.inj this]

theorem isNumberChar_chars {n : Number} (h : WellFormedNumber n) :
    ∀ c ∈ (number n).chars, isNumberChar c := by
  intro c hc
  cases n
  case int n => rcases isDigit_of_mem_int hc with h | rfl <;> simp [isNumberChar, *]
  case float text => exact h.1 c hc

theorem chars_ne_nil (h : WellFormedNumber n) : (number n).chars ≠ [] := by
  cases n
  case int n =>
    change (toString n).toList ≠ []
    rw [toList_toString]
    cases n
    case ofNat m => exact Nat.toDigits_ne_nil
    case negSucc m => exact cons_ne_nil '-' _
  case float text =>
    intro he
    have he : text.toList = [] := he
    rcases h.2 with h | h <;> rw [he] at h <;> cases h

theorem number_injective {m n : Number} (hm : WellFormedNumber m) (hn : WellFormedNumber n)
    (h : (number m).chars = (number n).chars) : m = n := by
  have hf {n : Int} {text : String} (hw : WellFormedNumber (.float text)) :
      (toString n).toList ≠ text.toList := by
    intro he
    rcases hw.2 with h | h <;> rw [← he] at h <;>
      rcases isDigit_of_mem_int h with h | h <;> revert h <;> decide
  cases m <;> cases n
  case int.int m n => rw [int_injective h]
  case int.float => exact (hf hn h).elim
  case float.int => exact (hf hm h.symm).elim
  case float.float s t => rw [show s = t from String.toList_injective h]

end Numbers

section Unambiguous

-- What can follow a value: nothing, or a character that belongs to no number.
def Delimited (s : List Char) : Prop :=
  ∀ c ∈ s.head?, isNumberChar c = false

theorem delimited_valuesTail (vs : List Json) (s : List Char) : Delimited (valuesTail vs ++ s) := by
  cases vs <;> simp [valuesTail, Delimited, isNumberChar]

theorem delimited_fieldsTail (vs : List (String × Json)) (s : List Char) :
    Delimited (fieldsTail vs ++ s) := by
  cases vs <;> simp [fieldsTail, Delimited, isNumberChar]

theorem numbers_end {m n s t : List Char} (hm : ∀ c ∈ m, isNumberChar c)
    (hn : ∀ c ∈ n, isNumberChar c) (hs : Delimited s) (ht : Delimited t) (h : m ++ s = n ++ t) :
    m = n ∧ s = t := by
  have hd {s : List Char} (hs : Delimited s) : s.takeWhile isNumberChar = [] := by
    cases s
    case nil => rfl
    case cons c s => simp [hs c rfl]
  have he := congrArg (takeWhile isNumberChar) h
  rw [takeWhile_append_of_pos hm, takeWhile_append_of_pos hn, hd hs, hd ht,
    append_nil, append_nil] at he
  subst he
  exact ⟨rfl, append_cancel_left h⟩

theorem quotes_end {q r : String}
    (h : Text.quote q.toList ++ s = Text.quote r.toList ++ t) : q = r ∧ s = t := by
  have he := SyncFieldId.quoted_quote q.toList s
  rw [h, SyncFieldId.quoted_quote] at he
  simp only [Option.some.injEq, Prod.mk.injEq] at he
  exact ⟨String.toList_injective he.1.symm, he.2.symm⟩

-- Numbers the forms of a value, and the characters that they begin with.
def shape : Json → Nat
  | null => 0
  | bool false => 1
  | bool true => 2
  | number _ => 3
  | string _ => 4
  | array _ => 5
  | object _ => 6

def shapeOf (c : Char) : Nat :=
  if isNumberChar c then 3
  else if c = 'n' then 0
  else if c = 'f' then 1
  else if c = 't' then 2
  else if c = '"' then 4
  else if c = '[' then 5
  else if c = '\x7b' then 6
  else 7

theorem exists_head {v : Json} (h : v.WellFormed) :
    ∃ c cs, v.chars = c :: cs ∧ shapeOf c = v.shape := by
  cases v
  case null => exact ⟨_, _, rfl, by decide⟩
  case bool b => cases b <;> exact ⟨_, _, rfl, by decide⟩
  case number n =>
    have ⟨c, cs, hc⟩ := exists_cons_of_ne_nil (chars_ne_nil h)
    have hn := isNumberChar_chars h c (hc ▸ .head _ ..)
    exact ⟨c, cs, hc, if_pos hn⟩
  case string s => exact ⟨_, _, chars_string s, rfl⟩
  case array vs =>
    cases vs
    case nil => exact ⟨_, _, chars_nil, by decide⟩
    case cons v vs => exact ⟨_, _, chars_array v vs, rfl⟩
  case object vs =>
    cases vs
    case nil => exact ⟨_, _, chars_empty, by decide⟩
    case cons v vs => exact ⟨_, _, chars_object v.1 v.2 vs, rfl⟩

theorem shape_eq {a b : Json} (ha : a.WellFormed) (hb : b.WellFormed)
    (h : a.chars ++ s = b.chars ++ t) : a.shape = b.shape := by
  have ⟨c, cs, hc, hl⟩ := exists_head ha
  have ⟨d, ds, hd, hm⟩ := exists_head hb
  rw [hc, hd, cons_append, cons_append] at h
  rw [← hl, ← hm, (cons.inj h).1]

theorem chars_ne_close {v : Json} (h : v.WellFormed) : v.chars ++ s ≠ ']' :: t := by
  have hc : shapeOf ']' = 7 := by decide
  have hv : v.shape < 7 := by rcases v with _ | (_ | _) | n | q | vs | vs <;> simp [shape]
  have ⟨c, cs, he, hl⟩ := exists_head h
  intro ht
  rw [he, cons_append] at ht
  rw [(cons.inj ht).1, hc] at hl
  omega

variable {b : Json}

theorem exists_number (h : b.shape = 3) : ∃ n, b = number n := by
  cases b
  case number n => exact ⟨n, rfl⟩
  case bool b => cases b <;> cases h
  all_goals cases h

theorem exists_string (h : b.shape = 4) : ∃ s, b = string s := by
  cases b
  case string q => exact ⟨q, rfl⟩
  case bool b => cases b <;> cases h
  all_goals cases h

theorem exists_array (h : b.shape = 5) : ∃ vs, b = array vs := by
  cases b
  case array vs => exact ⟨vs, rfl⟩
  case bool b => cases b <;> cases h
  all_goals cases h

theorem exists_object (h : b.shape = 6) : ∃ vs, b = object vs := by
  cases b
  case object vs => exact ⟨vs, rfl⟩
  case bool b => cases b <;> cases h
  all_goals cases h

theorem member_unambiguous {q r : String} {v w : Json} {x y s t : List Char}
    (h : Text.quote q.toList ++ ':' :: (v.chars ++ x) ++ s =
      Text.quote r.toList ++ ':' :: (w.chars ++ y) ++ t) :
    q = r ∧ v.chars ++ (x ++ s) = w.chars ++ (y ++ t) := by
  rw [append_assoc, append_assoc] at h
  have ⟨he, hr⟩ := quotes_end h
  rw [cons_append, cons_append, append_assoc, append_assoc] at hr
  exact ⟨he, (cons.inj hr).2⟩

mutual

theorem chars_unambiguous : (a : Json) → ∀ (b : Json) (s t : List Char), a.WellFormed →
    b.WellFormed → Delimited s → Delimited t → a.chars ++ s = b.chars ++ t → a = b ∧ s = t
  | null, b, s, t, ha, hb, hs, ht, h => by
    have hk := shape_eq ha hb h
    obtain rfl : b = null := by rcases b with _ | (_ | _) | n | q | vs | vs <;> first | rfl | cases hk
    exact ⟨rfl, append_cancel_left h⟩
  | bool x, b, s, t, ha, hb, hs, ht, h => by
    have hk := shape_eq ha hb h
    obtain rfl : b = bool x := by
      cases x <;> rcases b with _ | (_ | _) | n | q | vs | vs <;> first | rfl | cases hk
    exact ⟨rfl, append_cancel_left h⟩
  | number n, b, s, t, ha, hb, hs, ht, h => by
    obtain ⟨m, rfl⟩ := exists_number (shape_eq ha hb h).symm
    have ⟨he, hr⟩ := numbers_end (isNumberChar_chars ha) (isNumberChar_chars hb) hs ht h
    exact ⟨congrArg number (number_injective ha hb he), hr⟩
  | string q, b, s, t, ha, hb, _, _, h => by
    obtain ⟨r, rfl⟩ := exists_string (shape_eq ha hb h).symm
    rw [chars_string, chars_string] at h
    have ⟨he, hr⟩ := quotes_end h
    exact ⟨congrArg string he, hr⟩
  | array [], b, s, t, ha, hb, _, _, h => by
    obtain ⟨ws, rfl⟩ := exists_array (shape_eq ha hb h).symm
    cases ws
    case nil => exact ⟨rfl, append_cancel_left h⟩
    case cons w ws =>
      have he : ']' :: s = w.chars ++ valuesTail ws ++ t := by
        rw [chars_nil, chars_array] at h
        exact (cons.inj h).2
      rw [append_assoc] at he
      exact (chars_ne_close hb.1 he.symm).elim
  | array (v :: vs), b, s, t, ha, hb, _, _, h => by
    obtain ⟨ws, rfl⟩ := exists_array (shape_eq ha hb h).symm
    cases ws
    case nil =>
      rw [chars_nil, chars_array, cons_append, cons_append, append_assoc] at h
      exact (chars_ne_close ha.1 (cons.inj h).2).elim
    case cons w ws =>
      rw [chars_array, chars_array, cons_append, cons_append, append_assoc,
        append_assoc] at h
      have ⟨rfl, hr⟩ := chars_unambiguous v w _ _ ha.1 hb.1 (delimited_valuesTail vs s)
        (delimited_valuesTail ws t) (cons.inj h).2
      have ⟨rfl, hs⟩ := values_unambiguous vs ws s t ha.2 hb.2 hr
      exact ⟨rfl, hs⟩
  | object [], b, s, t, ha, hb, _, _, h => by
    obtain ⟨ws, rfl⟩ := exists_object (shape_eq ha hb h).symm
    cases ws
    case nil => exact ⟨rfl, append_cancel_left h⟩
    case cons w ws =>
      rw [chars_empty, chars_object] at h
      cases (cons.inj (cons.inj h).2).1
  | object ((name, v) :: vs), b, s, t, ha, hb, _, _, h => by
    obtain ⟨ws, rfl⟩ := exists_object (shape_eq ha hb h).symm
    cases ws
    case nil =>
      rw [chars_empty, chars_object] at h
      cases (cons.inj (cons.inj h).2).1
    case cons w ws =>
      obtain ⟨name', w⟩ := w
      rw [chars_object, chars_object, cons_append, cons_append] at h
      have ⟨rfl, hm⟩ := member_unambiguous (cons.inj h).2
      have ⟨rfl, hr⟩ := chars_unambiguous v w _ _ ha.1 hb.1 (delimited_fieldsTail vs s)
        (delimited_fieldsTail ws t) hm
      have ⟨rfl, hs⟩ := fields_unambiguous vs ws s t ha.2 hb.2 hr
      exact ⟨rfl, hs⟩

theorem values_unambiguous : (vs ws : List Json) → ∀ s t : List Char,
    WellFormedValues vs → WellFormedValues ws → valuesTail vs ++ s = valuesTail ws ++ t →
    vs = ws ∧ s = t
  | [], [], s, t, _, _, h => ⟨rfl, append_cancel_left h⟩
  | v :: vs, w :: ws, s, t, hv, hw, h => by
    rw [valuesTail, valuesTail, cons_append, cons_append, append_assoc,
      append_assoc] at h
    have ⟨rfl, hr⟩ := chars_unambiguous v w _ _ hv.1 hw.1 (delimited_valuesTail vs s)
      (delimited_valuesTail ws t) (cons.inj h).2
    have ⟨rfl, hs⟩ := values_unambiguous vs ws s t hv.2 hw.2 hr
    exact ⟨rfl, hs⟩

theorem fields_unambiguous : (vs ws : List (String × Json)) → ∀ s t : List Char,
    WellFormedFields vs → WellFormedFields ws → fieldsTail vs ++ s = fieldsTail ws ++ t →
    vs = ws ∧ s = t
  | [], [], s, t, _, _, h => ⟨rfl, append_cancel_left h⟩
  | (name, v) :: vs, (name', w) :: ws, s, t, hv, hw, h => by
    have ⟨rfl, hm⟩ := member_unambiguous (cons.inj h).2
    have ⟨rfl, hr⟩ := chars_unambiguous v w _ _ hv.1 hw.1 (delimited_fieldsTail vs s)
      (delimited_fieldsTail ws t) hm
    have ⟨rfl, hs⟩ := fields_unambiguous vs ws s t hv.2 hw.2 hr
    exact ⟨rfl, hs⟩

end

theorem toText_injective (ha : a.WellFormed) (hb : b.WellFormed) (h : a.toText = b.toText) :
    a = b := by
  have hd : Delimited [] := fun c hc => (Option.not_mem_none c hc).elim
  exact (chars_unambiguous a b [] [] ha hb hd hd (by rw [chars, chars, h])).1

end Unambiguous

end NyaTerm.Json
