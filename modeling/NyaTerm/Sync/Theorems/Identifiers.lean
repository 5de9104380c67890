import NyaTerm.Sync.Publication
import NyaTerm.Sync.Theorems.JsonText

open List

namespace NyaTerm

theorem Uuid.not_mem_toText (u : Uuid) : '/' ∉ u.toText := by
  have hh : '/' ∉ u.hex := fun hm => absurd (Text.isHex_toHex _ _ _ hm) (by decide)
  simp only [toText, hyphenate, mem_append, mem_cons, not_or]
  exact ⟨fun h => hh (mem_of_mem_take h), by decide, fun h => hh (mem_of_mem_drop (mem_of_mem_take h)),
    by decide, fun h => hh (mem_of_mem_drop (mem_of_mem_take h)), by decide,
    fun h => hh (mem_of_mem_drop (mem_of_mem_take h)), by decide, fun h => hh (mem_of_mem_drop h)⟩

namespace PublicationId

open Json

theorem parseU64_toDigits (n : UInt64) : parseU64 (Nat.toDigits 10 n.toNat) = some n := by
  have hp : (Nat.toDigits 10 n.toNat).head? ≠ some '+' := fun h =>
    absurd (isDigit_toDigits (mem_of_head? h)) (by decide)
  have hv : Nat.ofDigitChars 10 (Nat.toDigits 10 n.toNat) 0 = n.toNat :=
    Nat.ofDigitChars_ten_toDigits
  have hd : (Nat.toDigits 10 n.toNat).all Char.isDigit := all_eq_true.mpr fun c => isDigit_toDigits
  rw [parseU64, if_neg hp, hv, if_pos ⟨Nat.toDigits_ne_nil, hd, n.toNat_lt⟩, UInt64.ofNat_toNat]

theorem stripSuffix_append (text cs : List Char) : stripSuffix text (cs ++ text) = some cs := by
  simp [stripSuffix]

-- A path is split into the parts it was built from, valid or not.
theorem split_path (id : PublicationId) : split id.path = some id := by
  have hs : '-' ∉ Nat.toDigits 10 id.sequence.toNat := fun h =>
    absurd (isDigit_toDigits h) (by decide)
  have hf : stripSuffix suffix (Nat.toDigits 10 id.sequence.toNat ++ '-' :: (id.hash ++ suffix)) =
      some (Nat.toDigits 10 id.sequence.toNat ++ '-' :: id.hash) := by
    rw [← cons_append, ← append_assoc, stripSuffix_append]
  simp [split, path, Text.splitOnce_append id.writer.not_mem_toText, hf,
    Text.splitOnce_append hs, Uuid.parse_toText, parseU64_toDigits]

variable {id id' : PublicationId}

theorem path_injective (h : id.path = id'.path) : id = id' := by
  have := split_path id
  rw [h, split_path] at this
  exact (Option.some.inj this).symm

theorem parse_eq_some {path : List Char} : parse path = some id ↔ id.Valid ∧ id.path = path := by
  rw [parse, Option.filter_eq_some_iff, decide_eq_true_iff]
  refine ⟨fun h => h.2, fun h => ⟨?_, h⟩⟩
  rw [← h.2, split_path]

end PublicationId

-- What is accepted are the texts of the valid identifiers, each of which is read back, and no two
-- identifiers have the same text, whatever their parts contain.
theorem identifier_codecs_are_inverse :
    (∀ (path : List Char) (id : PublicationId),
      PublicationId.parse path = some id ↔ id.Valid ∧ id.path = path) ∧
    (∀ id id' : PublicationId, id.path = id'.path → id = id') ∧
    (∀ (key : String) (field : SyncFieldId),
      SyncFieldId.fromKey key = some field ↔ field.Valid ∧ field.key = key) ∧
    ∀ field field' : SyncFieldId, field.key = field'.key → field = field' :=
  ⟨fun _ _ => PublicationId.parse_eq_some, fun _ _ => PublicationId.path_injective,
    fun _ _ => SyncFieldId.fromKey_eq_some, fun _ _ => SyncFieldId.key_injective⟩

end NyaTerm
