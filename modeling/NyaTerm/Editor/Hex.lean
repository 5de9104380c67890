import Mathlib.Data.List.Basic

-- Byte-oriented editing, in which `none` is a panic.
namespace NyaTerm.Editor

inductive HexNibble where
  | high
  | low
  deriving DecidableEq

structure HexCursor where
  byteIndex : Nat := 0
  nibble : HexNibble := .high

structure HexSelection where
  anchor : Nat
  stop : Nat

def HexSelection.range (selection : HexSelection) : Nat × Nat :=
  (min selection.anchor selection.stop, max selection.anchor selection.stop)

structure HexDocument where
  bytes : List UInt8
  cursor : HexCursor := {}
  selection : Option HexSelection := none
  pendingNibble : Option UInt8 := none

namespace HexDocument

variable (document : HexDocument)

-- The selection as it is shown: an empty one is not.
def selected : Option (Nat × Nat) :=
  (document.selection.map HexSelection.range).filter fun range => range.1 < range.2

def moveCursor (cursor : HexCursor) (extend : Bool) : HexDocument :=
  let index := min cursor.byteIndex document.bytes.length
  { document with
    selection :=
      if extend then
        some ⟨document.selection.elim document.cursor.byteIndex HexSelection.anchor, index⟩
      else none
    cursor := ⟨index, if index = document.bytes.length then .high else cursor.nibble⟩
    pendingNibble := none }

def selectAll : HexDocument where
  bytes := document.bytes
  selection := some ⟨0, document.bytes.length⟩
  cursor := ⟨document.bytes.length, .high⟩

def cancelSelection : HexDocument where
  bytes := document.bytes
  cursor := ⟨document.cursor.byteIndex, .high⟩

def deleteSelection : Option (Bool × HexDocument) :=
  match document.selected with
  | none => some (false, document)
  | some (start, stop) =>
    if stop ≤ document.bytes.length then
      some (true, {
        bytes := document.bytes.take start ++ document.bytes.drop stop
        cursor := ⟨start, .high⟩ })
    else none

def typeNibble (nibble : UInt8) : Option HexDocument :=
  if 15 < nibble then some document else do
    let (_, document) ← document.deleteSelection
    let index := document.cursor.byteIndex
    match document.cursor.nibble with
    | .high => some { document with pendingNibble := some nibble, cursor := ⟨index, .low⟩ }
    | .low =>
      let high ← document.pendingNibble.or
        (document.bytes[index]?.map fun (byte : UInt8) => byte >>> 4)
      let byte := high <<< 4 ||| nibble
      let typed bytes : HexDocument :=
        { document with bytes, pendingNibble := none, cursor := ⟨index + 1, .high⟩ }
      if index = document.bytes.length then some (typed (document.bytes ++ [byte]))
      else if index < document.bytes.length then some (typed (document.bytes.set index byte))
      else none

def insertBytes (bytes : List UInt8) : Option HexDocument :=
  if bytes = [] then some document else do
    let (_, document) ← document.deleteSelection
    let index := document.cursor.byteIndex
    if index ≤ document.bytes.length then
      some { document with
        bytes := document.bytes.take index ++ bytes ++ document.bytes.drop index
        cursor := ⟨index + bytes.length, .high⟩
        pendingNibble := none }
    else none

def delete (backwards : Bool) : Option HexDocument :=
  let index := document.cursor.byteIndex
  if document.pendingNibble.isSome then
    some { document with pendingNibble := none, cursor := ⟨index, .high⟩ }
  else do
    let (deleted, shorter) ← document.deleteSelection
    if deleted then some shorter
    else if backwards ∧ 0 < index then
      if index ≤ document.bytes.length then
        some { document with
          bytes := document.bytes.eraseIdx (index - 1), cursor := ⟨index - 1, .high⟩ }
      else none
    else if ¬backwards ∧ index < document.bytes.length then
      some { document with bytes := document.bytes.eraseIdx index, cursor := ⟨index, .high⟩ }
    else some { document with cursor := ⟨index, .high⟩ }

def selectedBytes : Option (List UInt8) :=
  match document.selected with
  | none => some document.bytes
  | some (start, stop) =>
    if stop ≤ document.bytes.length then some ((document.bytes.take stop).drop start) else none

inductive Operation where
  | setBytes (bytes : List UInt8)
  | moveCursor (cursor : HexCursor) (extend : Bool)
  | selectAll
  | cancelSelection
  | typeNibble (nibble : UInt8)
  | insertBytes (bytes : List UInt8)
  | delete (backwards : Bool)
  | selectedBytes

def apply : Operation → Option HexDocument
  | .setBytes bytes => some { bytes }
  | .moveCursor cursor extend => some (document.moveCursor cursor extend)
  | .selectAll => some document.selectAll
  | .cancelSelection => some document.cancelSelection
  | .typeNibble nibble => document.typeNibble nibble
  | .insertBytes bytes => document.insertBytes bytes
  | .delete backwards => document.delete backwards
  | .selectedBytes => document.selectedBytes.map fun _ => document

end HexDocument

inductive HexPasteError where
  | invalidFormat
  | incompleteByte
  deriving DecidableEq

def hexDigit (ch : UInt8) : Option UInt8 :=
  if 48 ≤ ch ∧ ch ≤ 57 then some (ch - 48)
  else if 97 ≤ ch ∧ ch ≤ 102 then some (ch - 97 + 10)
  else if 65 ≤ ch ∧ ch ≤ 70 then some (ch - 65 + 10)
  else none

def isAsciiWhitespace (ch : UInt8) : Bool :=
  ch = 32 ∨ ch = 9 ∨ ch = 10 ∨ ch = 12 ∨ ch = 13

-- A pair after `0x` or `0X`.
def startsWithZeroX (input : List UInt8) : Bool :=
  [48, 120].isPrefixOf input || [48, 88].isPrefixOf input

-- A pair after a backslash and `x` or `X`, or after `0x` or `0X`.
def isPrefixed (input : List UInt8) : Bool :=
  startsWithZeroX input || [92, 120].isPrefixOf input || [92, 88].isPrefixOf input

-- The loop over the input, with the digits that were read.
def pasteDigits (digits : List UInt8) : List UInt8 → Except HexPasteError (List UInt8)
  | [] => if digits.length % 2 = 0 then .ok digits else .error .incompleteByte
  | ch :: input =>
    if isAsciiWhitespace ch ∨ ch = 44 then
      if digits.length % 2 = 0 then pasteDigits digits input else .error .incompleteByte
    else if isPrefixed (ch :: input) then
      if digits.length % 2 = 0 then
        match input with
        | _ :: first :: second :: rest =>
          match hexDigit first, hexDigit second with
          | some high, some low =>
            if rest.head?.any (hexDigit · |>.isSome) ∧ ¬startsWithZeroX rest then
              .error .invalidFormat
            else pasteDigits (digits ++ [high, low]) rest
          | _, _ => .error .invalidFormat
        | _ => .error .incompleteByte
      else .error .incompleteByte
    else
      match hexDigit ch with
      | some digit => pasteDigits (digits ++ [digit]) input
      | none => .error .invalidFormat

def pairs : List UInt8 → List UInt8
  | high :: low :: digits => (high <<< 4 ||| low) :: pairs digits
  | _ => []

def parseHexPaste (text : List UInt8) : Except HexPasteError (List UInt8) :=
  (pasteDigits [] text).map pairs

inductive HexCopyFormat where
  | hex
  | compact
  | cArray
  | escaped
  | ascii
  deriving DecidableEq

-- Two digits in upper case.
def upperHex (byte : UInt8) : List UInt8 :=
  [byte >>> 4, byte &&& 15].map fun digit => if digit < 10 then 48 + digit else 55 + digit

-- What is written before each byte, and between two of them.
def HexCopyFormat.marks : HexCopyFormat → List UInt8 × List UInt8
  | .hex => ([], [32])
  | .compact => ([], [])
  | .cArray => ([48, 120], [44, 32])
  | .escaped => ([92, 120], [])
  | .ascii => ([], [])

-- The text as its bytes. Bytes that cannot be printed are shown as a middle dot.
def formatHex (bytes : List UInt8) (format : HexCopyFormat) : List UInt8 :=
  if format = .ascii then
    bytes.flatMap fun byte => if 0x20 ≤ byte ∧ byte ≤ 0x7e then [byte] else [0xc2, 0xb7]
  else
    format.marks.2.intercalate (bytes.map fun byte => format.marks.1 ++ upperHex byte)

-- The document of an editor, and why the last text could not be pasted.
structure HexEditor where
  document : HexDocument
  error : Option HexPasteError

def HexEditor.paste (editor : HexEditor) (text : List UInt8) : Option HexEditor :=
  match parseHexPaste text with
  | .ok bytes => (editor.document.insertBytes bytes).map ({ document := ·, error := none })
  | .error error => some { editor with error := some error }

end NyaTerm.Editor
