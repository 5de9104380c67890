import NyaTerm.Editor.Theorems.Hex

open List

namespace NyaTerm.Editor

-- The two digits of a byte.
def nibbles (byte : UInt8) : List UInt8 :=
  [byte >>> 4, byte &&& 15]

theorem forall_byte {p : UInt8 → Prop} (h : ∀ n : Fin 256, p ⟨⟨n⟩⟩) (byte : UInt8) : p byte :=
  h byte.toFin

theorem not_separator_of_hexDigit : ∀ ch, (hexDigit ch).isSome →
    ¬(isAsciiWhitespace ch ∨ ch = 44) ∧ ch ≠ 92 ∧ ch ≠ 120 ∧ ch ≠ 88 :=
  forall_byte (by decide +kernel)

theorem upperHex_digits : ∀ byte, ∃ first second, upperHex byte = [first, second] ∧
    hexDigit first = some (byte >>> 4) ∧ hexDigit second = some (byte &&& 15) :=
  forall_byte fun n => ⟨_, _, rfl, by revert n; decide +kernel⟩

theorem pairs_nibbles : ∀ byte : UInt8, byte >>> 4 <<< 4 ||| byte &&& 15 = byte :=
  forall_byte (by decide +kernel)

theorem pairs_flatMap_nibbles (bytes : List UInt8) : pairs (bytes.flatMap nibbles) = bytes := by
  induction bytes
  case nil => rfl
  case cons byte bytes ih => simp [nibbles, pairs, pairs_nibbles, ih]

variable {format : HexCopyFormat}

-- What may follow a byte: no letter of a mark, and no digit where bytes are marked.
def Ends (format : HexCopyFormat) (rest : List UInt8) : Prop :=
  ∀ ch ∈ rest.head?, ch ≠ 120 ∧ ch ≠ 88 ∧ (format.marks.1 ≠ [] → hexDigit ch = none)

theorem pasteDigits_digit (hd : hexDigit ch = some digit) (hr : Ends format rest) :
    pasteDigits digits (ch :: rest) = pasteDigits (digits ++ [digit]) rest := by
  obtain ⟨hs, -⟩ := not_separator_of_hexDigit ch (by simp [hd])
  have hp : isPrefixed (ch :: rest) = false := by
    cases rest
    case nil => simp [isPrefixed, startsWithZeroX, isPrefixOf]
    case cons next rest =>
      obtain ⟨hx, hX, -⟩ := hr next rfl
      simp [isPrefixed, startsWithZeroX, isPrefixOf, hx.symm, hX.symm]
  rw [pasteDigits.eq_def]
  simp only [hs, hp, hd, if_false, Bool.false_eq_true]

theorem pasteDigits_byte (he : digits.length % 2 = 0) (hr : Ends format rest) (byte : UInt8) :
    pasteDigits digits (format.marks.1 ++ upperHex byte ++ rest) =
      pasteDigits (digits ++ nibbles byte) rest := by
  obtain ⟨first, second, hu, hf, hs⟩ := upperHex_digits byte
  obtain ⟨-, -, hx, hX⟩ := not_separator_of_hexDigit second (by simp [hs])
  rw [hu]
  -- Either the digits are read one by one, or with the mark before them.
  have hplain : pasteDigits digits ([first, second] ++ rest) =
      pasteDigits (digits ++ nibbles byte) rest := by
    rw [cons_append, @pasteDigits_digit .hex _ _ _ _ hf, singleton_append, pasteDigits_digit hs hr,
      append_assoc]
    · rfl
    · rintro _ ⟨⟩
      exact ⟨hx, hX, nofun⟩
  have hmarked (hm : format.marks.1 ≠ []) (mark : UInt8) (hk : mark = 48 ∨ mark = 92) :
      pasteDigits digits ([mark, 120] ++ [first, second] ++ rest) =
        pasteDigits (digits ++ nibbles byte) rest := by
    have hh : rest.head?.any (hexDigit · |>.isSome) = false := by
      simp only [Option.any_eq_false, Option.isSome_eq_false_iff,
        Option.isNone_iff_eq_none]
      exact fun ch hc => (hr ch hc).2.2 hm
    obtain rfl | rfl := hk
    all_goals
      simp [pasteDigits, isAsciiWhitespace, isPrefixed, startsWithZeroX, he, hf, hs, hh, nibbles]
  cases format
  case hex | compact | ascii => exact hplain
  case cArray => exact hmarked nofun 48 (.inl rfl)
  case escaped => exact hmarked nofun 92 (.inr rfl)

theorem pasteDigits_skip (hs : isAsciiWhitespace ch ∨ ch = 44) (he : digits.length % 2 = 0) :
    pasteDigits digits (ch :: rest) = pasteDigits digits rest := by
  rw [pasteDigits.eq_def]
  simp only [hs, he, if_true]

theorem pasteDigits_separator (he : digits.length % 2 = 0) :
    pasteDigits digits (format.marks.2 ++ rest) = pasteDigits digits rest := by
  cases format
  case hex => exact pasteDigits_skip (.inl rfl) he
  case cArray => exact (pasteDigits_skip (.inr rfl) he).trans (pasteDigits_skip (.inl rfl) he)
  all_goals rfl

theorem ends_separator (hf : format ≠ .ascii) (byte : UInt8) :
    Ends format (format.marks.2 ++ (format.marks.1 ++ upperHex byte ++ rest)) := by
  obtain ⟨first, second, hu, hd, -⟩ := upperHex_digits byte
  obtain ⟨-, -, hx, hX⟩ := not_separator_of_hexDigit first (by simp [hd])
  rw [hu]
  cases format <;> simp_all [Ends, HexCopyFormat.marks] <;> decide

theorem pasteDigits_join (hf : format ≠ .ascii) (bytes : List UInt8)
    (he : digits.length % 2 = 0) :
    pasteDigits digits (format.marks.2.intercalate
      (bytes.map fun byte => format.marks.1 ++ upperHex byte)) =
      .ok (digits ++ bytes.flatMap nibbles) := by
  induction bytes generalizing digits
  case nil => simp [pasteDigits, he]
  case cons byte bytes ih =>
    have he' : (digits ++ nibbles byte).length % 2 = 0 := by
      rw [length_append]
      exact (Nat.add_mod_right _ _).trans he
    cases bytes
    case nil =>
      have hnil : Ends format [] := fun _ h => nomatch h
      have hlast := pasteDigits_byte he hnil byte
      rw [append_nil, pasteDigits, if_pos he'] at hlast
      simpa using hlast
    case cons next bytes =>
      have hnext := ih he'
      rw [map_cons] at hnext
      rw [map_cons, map_cons, intercalate_cons_cons, append_assoc]
      obtain ⟨rest, hrest⟩ : ∃ rest, format.marks.2.intercalate ((format.marks.1 ++ upperHex next) ::
          bytes.map fun byte => format.marks.1 ++ upperHex byte) =
          format.marks.1 ++ upperHex next ++ rest := by
        cases bytes
        case nil => exact ⟨[], by simp⟩
        case cons => exact ⟨_, by rw [map_cons, intercalate_cons_cons, append_assoc]⟩
      rw [hrest] at hnext ⊢
      rw [pasteDigits_byte he (ends_separator hf next), pasteDigits_separator he', hnext]
      simp

-- Each format but the one that shows characters is read back.
theorem parseHexPaste_formatHex (bytes : List UInt8) (format : HexCopyFormat)
    (hf : format ≠ .ascii) :
    parseHexPaste (formatHex bytes format) = .ok bytes := by
  rw [parseHexPaste, formatHex, if_neg hf, pasteDigits_join hf bytes rfl, nil_append]
  exact congrArg _ (pairs_flatMap_nibbles bytes)

theorem parseHexPaste_formatHex_cArray :
    formatHex [0, 0xab] .cArray = "0x00, 0xAB".toList.map (·.toNat.toUInt8) ∧
    parseHexPaste (formatHex [0, 0xab] .cArray) = .ok [0, 0xab] :=
  ⟨by decide, parseHexPaste_formatHex _ _ nofun⟩

namespace HexEditor

open HexDocument

-- Pasting what was copied over the selection succeeds and changes no byte.
theorem paste_copied {editor : HexEditor} (h : InRange editor.document)
    (hr : editor.document.selected = some (start, stop)) (format : HexCopyFormat)
    (hf : format ≠ .ascii) :
    ∃ bytes next, editor.document.selectedBytes = some bytes ∧
      editor.paste (formatHex bytes format) = some next ∧ next.error = none ∧
      next.document.bytes = editor.document.bytes := by
  obtain ⟨document, error⟩ := editor
  obtain ⟨hle, hstop⟩ := h.selected hr
  have hcut := take_append_drop start (document.bytes.take stop)
  rw [take_take, Nat.min_eq_left hle] at hcut
  have hp bytes : parseHexPaste (formatHex bytes format) = .ok bytes := by
    rw [parseHexPaste, formatHex, if_neg hf, pasteDigits_join hf bytes rfl]
    exact congrArg _ (pairs_flatMap_nibbles bytes)
  simp only [selectedBytes, hr, paste, hp, insertBytes, deleteSelection, if_pos hstop]
  refine ⟨(document.bytes.take stop).drop start, ?_⟩
  split
  case isTrue => exact ⟨_, rfl, rfl, rfl, rfl⟩
  case isFalse =>
    have htake : (document.bytes.take start).length = start := length_take_of_le (Nat.le_trans hle hstop)
    simp [htake, -append_assoc, hcut]

theorem paste_copied_first :
    ∃ next, paste ⟨⟨[1, 2], {}, some ⟨0, 1⟩, none⟩, some .invalidFormat⟩ (formatHex [1] .escaped) =
      some next ∧ next.error = none ∧ next.document.bytes = [1, 2] := by
  obtain ⟨_, next, ⟨⟩, hn⟩ := @paste_copied _ _
    ⟨⟨[1, 2], {}, some ⟨0, 1⟩, none⟩, some .invalidFormat⟩ ⟨by decide, by simp, nofun⟩ rfl .escaped nofun
  exact ⟨next, hn⟩

end HexEditor

end NyaTerm.Editor
