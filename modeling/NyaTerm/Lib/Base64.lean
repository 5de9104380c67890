import Mathlib.Data.List.Basic

-- Base64 with the standard alphabet and canonical padding.
namespace Base64

def pad : UInt8 := 61

-- Upper case letters, lower case letters, digits, + and /.
def symbol (i : Nat) : UInt8 :=
  if i < 26 then UInt8.ofNat (65 + i)
  else if i < 52 then UInt8.ofNat (71 + i)
  else if i < 62 then UInt8.ofNat (i - 4)
  else if i = 62 then 43
  else 47

def value (c : UInt8) : Option Nat :=
  if 65 ≤ c.toNat ∧ c.toNat < 91 then some (c.toNat - 65)
  else if 97 ≤ c.toNat ∧ c.toNat < 123 then some (c.toNat - 71)
  else if 48 ≤ c.toNat ∧ c.toNat < 58 then some (c.toNat + 4)
  else if c = 43 then some 62
  else if c = 47 then some 63
  else none

-- Three bytes become four symbols.
def encode : List UInt8 → List UInt8
  | [] => []
  | [a] => [symbol (a.toNat / 4), symbol (a.toNat % 4 * 16), pad, pad]
  | [a, b] =>
    [symbol (a.toNat / 4), symbol (a.toNat % 4 * 16 + b.toNat / 16), symbol (b.toNat % 16 * 4), pad]
  | a :: b :: c :: bytes =>
    symbol (a.toNat / 4) :: symbol (a.toNat % 4 * 16 + b.toNat / 16) ::
      symbol (b.toNat % 16 * 4 + c.toNat / 64) :: symbol (c.toNat % 64) :: encode bytes

def decodeGroup (a b c d : UInt8) : Option (List UInt8) :=
  (value a).bind fun i => (value b).bind fun j => (value c).bind fun k => (value d).map fun l =>
    [UInt8.ofNat (i * 4 + j / 16), UInt8.ofNat (j % 16 * 16 + k / 4), UInt8.ofNat (k % 4 * 64 + l)]

-- The bits that padding leaves unused are zero.
def decodeLast (a b c d : UInt8) : Option (List UInt8) :=
  if d = pad then
    (value a).bind fun i => (value b).bind fun j =>
      if c = pad then
        if j % 16 = 0 then some [UInt8.ofNat (i * 4 + j / 16)] else none
      else
        (value c).bind fun k =>
          if k % 4 = 0 then some [UInt8.ofNat (i * 4 + j / 16), UInt8.ofNat (j % 16 * 16 + k / 4)]
          else none
  else
    decodeGroup a b c d

-- Only the last four symbols may be padded.
def decode : List UInt8 → Option (List UInt8)
  | [] => some []
  | a :: b :: c :: d :: symbols =>
    if symbols = [] then decodeLast a b c d
    else (decodeGroup a b c d).bind fun group => (decode symbols).map (group ++ ·)
  | _ => none

theorem value_symbol (h : i < 64) : value (symbol i) = some i := by
  have hall : ∀ i < 64, value (symbol i) = some i := by decide
  exact hall i h

theorem symbol_ne_pad (h : i < 64) : symbol i ≠ pad := by
  have hall : ∀ i < 64, symbol i ≠ pad := by decide
  exact hall i h

theorem encode_ne_nil (h : bytes ≠ []) : encode bytes ≠ [] := by
  rcases bytes with _ | ⟨a, _ | ⟨b, _ | ⟨c, bytes⟩⟩⟩
  case nil => exact absurd rfl h
  all_goals exact List.cons_ne_nil _ _

theorem encode_length : (encode bytes).length = 4 * ((bytes.length + 2) / 3) := by
  fun_induction encode bytes
  case case1 => rfl
  case case2 | case3 => simp
  case case4 a b c bytes ih =>
    simp only [List.length_cons, ih]
    omega

theorem encode_split (k : Nat) : (encode bytes).take (4 * k) = encode (bytes.take (3 * k)) ∧
    (encode bytes).drop (4 * k) = encode (bytes.drop (3 * k)) := by
  induction k generalizing bytes
  case zero => exact ⟨rfl, rfl⟩
  case succ k ih =>
    rw [Nat.mul_succ, Nat.mul_succ]
    rcases bytes with _ | ⟨a, _ | ⟨b, _ | ⟨c, bytes⟩⟩⟩
    case nil => exact ⟨rfl, rfl⟩
    case cons.nil | cons.cons.nil => simp [encode]
    case cons.cons.cons =>
      have ⟨htake, hdrop⟩ := @ih bytes
      exact ⟨by simp only [encode, List.take_succ_cons, htake],
        by simp only [encode, List.drop_succ_cons, hdrop]⟩

theorem encode_append_take (k : Nat) :
    encode (bytes.take (3 * k)) ++ encode (bytes.drop (3 * k)) = encode bytes := by
  rw [← (encode_split k).1, ← (encode_split k).2, List.take_append_drop]

theorem encode_padded (h : pad ∈ encode bytes) : bytes.length % 3 ≠ 0 := by
  fun_induction encode bytes
  case case1 => cases h
  case case2 | case3 => simp
  case case4 a b c bytes ih =>
    have ha := a.toNat_lt
    have hb := b.toNat_lt
    have hc := c.toNat_lt
    simp only [List.mem_cons] at h
    rcases h with h | h | h | h | h
    · exact absurd h.symm (symbol_ne_pad (by omega))
    · exact absurd h.symm (symbol_ne_pad (by omega))
    · exact absurd h.symm (symbol_ne_pad (by omega))
    · exact absurd h.symm (symbol_ne_pad (by omega))
    · have hrest := ih h
      simp only [List.length_cons]
      omega

theorem ofNat_eq {a : UInt8} {n : Nat} (h : n = a.toNat) : UInt8.ofNat n = a := by
  rw [h, UInt8.ofNat_toNat]

theorem decodeGroup_encode (a b c : UInt8) :
    decodeGroup (symbol (a.toNat / 4)) (symbol (a.toNat % 4 * 16 + b.toNat / 16))
      (symbol (b.toNat % 16 * 4 + c.toNat / 64)) (symbol (c.toNat % 64)) = some [a, b, c] := by
  have ha := a.toNat_lt
  have hb := b.toNat_lt
  have hc := c.toNat_lt
  rw [decodeGroup, value_symbol (by omega), value_symbol (by omega), value_symbol (by omega),
    value_symbol (by omega)]
  simp only [Option.bind_some, Option.map_some]
  rw [@ofNat_eq a _ (by omega), @ofNat_eq b _ (by omega), @ofNat_eq c _ (by omega)]

theorem decode_encode : decode (encode bytes) = some bytes := by
  fun_induction encode bytes
  case case1 => rfl
  case case2 a =>
    have ha := a.toNat_lt
    rw [decode, if_pos rfl, decodeLast, if_pos rfl, value_symbol (by omega), value_symbol (by omega),
      Option.bind_some, Option.bind_some, if_pos rfl, if_pos (by omega), @ofNat_eq a _ (by omega)]
  case case3 a b =>
    have ha := a.toNat_lt
    have hb := b.toNat_lt
    rw [decode, if_pos rfl, decodeLast, if_pos rfl, value_symbol (by omega), value_symbol (by omega),
      Option.bind_some, Option.bind_some, if_neg (symbol_ne_pad (by omega)), value_symbol (by omega),
      Option.bind_some, if_pos (by omega), @ofNat_eq a _ (by omega), @ofNat_eq b _ (by omega)]
  case case4 a b c bytes ih =>
    rw [decode]
    split
    case isTrue hnil =>
      have hbytes : bytes = [] := not_not.mp fun h => encode_ne_nil h hnil
      rw [decodeLast, if_neg (symbol_ne_pad (by omega)), decodeGroup_encode, hbytes]
    case isFalse => rw [decodeGroup_encode, Option.bind_some, ih, Option.map_some]; rfl

end Base64
