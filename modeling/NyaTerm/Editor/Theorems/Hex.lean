import NyaTerm.Editor.Hex
import NyaTerm.Lib.Labelled

open List Option

namespace NyaTerm.Editor.HexDocument

structure InRange (document : HexDocument) : Prop where
  cursor : document.cursor.byteIndex ≤ document.bytes.length
  selection : ∀ s ∈ document.selection,
    s.anchor ≤ document.bytes.length ∧ s.stop ≤ document.bytes.length
  nibble : document.cursor.nibble = .low → document.cursor.byteIndex = document.bytes.length →
    document.pendingNibble.isSome

-- No byte is deleted while an empty selection is kept behind the last one.
def Keeps (document : HexDocument) : Operation → Prop
  | .delete backwards => document.pendingNibble = none →
    (if backwards then 0 < document.cursor.byteIndex
      else document.cursor.byteIndex < document.bytes.length) →
    ∀ s ∈ document.selection, s.anchor = s.stop → s.anchor < document.bytes.length
  | _ => True

theorem inRange_new (bytes : List UInt8) : InRange { bytes } :=
  ⟨Nat.zero_le _, nofun, nofun⟩

variable (h : InRange document)

namespace InRange

include h

theorem selected {range : Nat × Nat} (hr : document.selected = some range) :
    range.1 ≤ range.2 ∧ range.2 ≤ document.bytes.length := by
  simp only [HexDocument.selected, filter_eq_some_iff, map_eq_some_iff] at hr
  obtain ⟨⟨s, hs, rfl⟩, -⟩ := hr
  have := h.selection s hs
  simp only [HexSelection.range]
  omega

theorem deleteSelection : ∃ deleted shorter,
    document.deleteSelection = some (deleted, shorter) ∧ shorter.InRange ∧
    (deleted = false → ∀ s ∈ document.selection, s.anchor = s.stop) := by
  rw [HexDocument.deleteSelection]
  cases hr : document.selected
  case none =>
    refine ⟨false, document, rfl, h, fun _ s hs => ?_⟩
    simp only [HexDocument.selected, filter_eq_none_iff] at hr
    have : s.range.2 ≤ s.range.1 := by simpa using hr _ (congrArg (Option.map _) hs)
    simp only [HexSelection.range] at this
    omega
  case some range =>
    obtain ⟨start, stop⟩ := range
    have := h.selected hr
    refine ⟨true, _, if_pos this.2, ⟨?_, nofun, nofun⟩,
      nofun⟩
    simp
    omega

theorem typeNibble (nibble : UInt8) :
    ∃ next, document.typeNibble nibble = some next ∧ next.InRange := by
  rw [HexDocument.typeNibble]
  split
  case isTrue => exact ⟨_, rfl, h⟩
  obtain ⟨_, shorter, hd, hs, -⟩ := h.deleteSelection
  simp only [hd, bind_eq_bind, bind_some]
  cases hn : shorter.cursor.nibble
  case high => exact ⟨_, rfl, hs.cursor, hs.selection, fun _ _ => rfl⟩
  case low =>
    have := hs.cursor
    obtain ⟨high, hh⟩ : ∃ high, shorter.pendingNibble.or
        (shorter.bytes[shorter.cursor.byteIndex]?.map fun (byte : UInt8) => byte >>> 4) =
          some high := by
      rw [← isSome_iff_exists]
      have := hs.nibble hn
      grind
    simp only [hh, bind_some]
    split
    case isTrue he =>
      refine ⟨_, rfl, by simp [he], fun s hm => ?_, nofun⟩
      have := hs.selection s hm
      simp
      omega
    case isFalse he =>
      rw [if_pos (by omega)]
      refine ⟨_, rfl, by simp; omega, fun s hm => ?_, nofun⟩
      simpa using hs.selection s hm

theorem insertBytes (bytes : List UInt8) :
    ∃ next, document.insertBytes bytes = some next ∧ next.InRange := by
  rw [HexDocument.insertBytes]
  split
  case isTrue => exact ⟨_, rfl, h⟩
  obtain ⟨_, shorter, hd, hs, -⟩ := h.deleteSelection
  have := hs.cursor
  simp only [hd, bind_eq_bind, bind_some, if_pos this]
  refine ⟨_, rfl, by simp; omega, fun s hm => ?_, nofun⟩
  have := hs.selection s hm
  simp
  omega

theorem delete (backwards : Bool) : ∃ next, document.delete backwards = some next ∧
    (document.Keeps (.delete backwards) → next.InRange) := by
  rw [HexDocument.delete]
  split
  case isTrue => exact ⟨_, rfl, fun _ => ⟨h.cursor, h.selection, nofun⟩⟩
  rename_i hp
  obtain ⟨deleted, shorter, hd, hs, hk⟩ := h.deleteSelection
  simp only [hd, bind_eq_bind, bind_some]
  cases deleted
  case true => exact ⟨_, rfl, fun _ => hs⟩
  have := h.cursor
  -- What is kept is empty, so that its ends stay within the bytes if its anchor does.
  have hr {bytes index} (hb : bytes.length = document.bytes.length - 1)
      (hi : index ≤ document.bytes.length - 1)
      (hg : if backwards then 0 < document.cursor.byteIndex
        else document.cursor.byteIndex < document.bytes.length)
      (hk' : document.Keeps (.delete backwards)) :
      InRange { document with bytes, cursor := ⟨index, .high⟩ } := by
    refine ⟨hb ▸ hi, fun s hm => ?_, nofun⟩
    have := hk' (by simpa using hp) hg s hm
    have := hk rfl s hm
    simp only
    omega
  simp only [Bool.false_eq_true, if_false]
  split
  case isTrue hb =>
    exact ⟨_, rfl, hr (length_eraseIdx_of_lt (by omega)) (by omega) (by simp [hb])⟩
  split
  case isTrue hb =>
    exact ⟨_, rfl, hr (length_eraseIdx_of_lt hb.2) (by omega) (by simp [hb])⟩
  exact ⟨_, rfl, fun _ => ⟨h.cursor, h.selection, nofun⟩⟩

theorem apply (operation : Operation) : ∃ next, document.apply operation = some next ∧
    (document.Keeps operation → next.InRange) := by
  cases operation
  case setBytes bytes => exact ⟨_, rfl, fun _ => inRange_new bytes⟩
  case moveCursor cursor extend =>
    refine ⟨_, rfl, fun _ => ⟨Nat.min_le_right .., fun s hs => ?_, fun hn he => ?_⟩⟩
    · cases extend
      case false => cases hs
      case true =>
        cases hs
        refine ⟨?_, Nat.min_le_right ..⟩
        cases hm : document.selection
        case none => exact h.cursor
        case some s => exact (h.selection s hm).1
    · exact absurd ((if_pos he).symm.trans hn) (by decide)
  case selectAll =>
    refine ⟨_, rfl, fun _ => ⟨Nat.le_refl _, fun s hs => ?_, nofun⟩⟩
    cases hs
    exact ⟨Nat.zero_le _, Nat.le_refl _⟩
  case cancelSelection =>
    exact ⟨_, rfl, fun _ => ⟨h.cursor, nofun, nofun⟩⟩
  case typeNibble nibble => exact (h.typeNibble nibble).imp fun _ hn => ⟨hn.1, fun _ => hn.2⟩
  case insertBytes bytes => exact (h.insertBytes bytes).imp fun _ hn => ⟨hn.1, fun _ => hn.2⟩
  case delete backwards => exact h.delete backwards
  case selectedBytes =>
    refine ⟨document, ?_, fun _ => h⟩
    simp only [HexDocument.apply, HexDocument.selectedBytes]
    cases hr : document.selected
    case none => rfl
    case some range => simp [h.selected hr]

end InRange

def Edits (document : HexDocument) (operation : Operation) (next : HexDocument) : Prop :=
  document.Keeps operation ∧ document.apply operation = some next

theorem documents_stay_in_range (bytes : List UInt8) {operations : List Operation}
    {document : HexDocument} (h : Labelled.Run Edits { bytes } operations document) :
    document.InRange ∧ ∀ operation, (document.apply operation).isSome := by
  have hi : document.InRange := by
    refine h.invariant (fun hs hd => ?_) (inRange_new bytes)
    obtain ⟨next, hn, hr⟩ := hd.apply _
    cases hn.symm.trans hs.2
    exact hr hs.1
  refine ⟨hi, fun operation => ?_⟩
  obtain ⟨next, hn, -⟩ := hi.apply operation
  simp [hn]

theorem documents_stay_in_range_typed : InRange { bytes := [0x1f], cursor := ⟨1, .high⟩ } :=
  (documents_stay_in_range [0] (show Labelled.Run Edits _ [.delete false, .typeNibble 1, .typeNibble 15] _
    from .cons ⟨nofun, rfl⟩ (.cons ⟨trivial, rfl⟩ (.cons ⟨trivial, rfl⟩ .nil)))).1

-- A deleted byte leaves an empty selection behind the end, from which the next one is extended.
theorem deletion_strands_selection :
    ([.moveCursor ⟨1, .high⟩ false, .moveCursor ⟨1, .high⟩ true, .delete true,
      .moveCursor ⟨0, .high⟩ true].foldlM apply { bytes := [0] }).map
      (fun document => (document.bytes, document.selected, document.selectedBytes)) =
    some ([], some (0, 1), none) := by
  decide

end NyaTerm.Editor.HexDocument
