import Mathlib.Algebra.GroupWithZero.Nat

open List

-- Metadata that is kept with its validators, in which `none` is a panic.
namespace NyaTerm.MetadataCache

structure Entry where
  path : String
  bytes : List UInt8
  etag : String

def Entry.size (entry : Entry) : Nat :=
  entry.bytes.length + entry.path.utf8ByteSize + entry.etag.utf8ByteSize

structure CloudMetadataCache where
  entries : List Entry := []
  bytes : Nat := 0

def maxBytes : Nat := 16 * 1024 * 1024

def maxEntries : Nat := 1024

variable (cache : CloudMetadataCache) (path : String)

def remove : Option CloudMetadataCache :=
  match cache.entries.find? (·.path = path) with
  | none => some cache
  | some entry =>
    if entry.size ≤ cache.bytes then
      some ⟨cache.entries.eraseP (·.path = path), cache.bytes - entry.size⟩
    else none

-- What is found becomes the last to be evicted.
def get : Option (List UInt8 × String) × CloudMetadataCache :=
  match cache.entries.find? (·.path = path) with
  | none => (none, cache)
  | some entry => (some (entry.bytes, entry.etag),
      { cache with entries := cache.entries.eraseP (·.path = path) ++ [entry] })

def evict (size : Nat) : List Entry → Nat → Option CloudMetadataCache
  | entries, bytes =>
    if maxBytes < bytes + size ∨ maxEntries ≤ entries.length then
      match entries with
      | [] => none
      | entry :: entries =>
        if entry.size ≤ bytes then evict size entries (bytes - entry.size) else none
    else some ⟨entries, bytes⟩

def insert (bytes : List UInt8) (etag : String) : Option CloudMetadataCache := do
  let cache ← remove cache path
  let entry : Entry := ⟨path, bytes, etag⟩
  if maxBytes < entry.size ∨ etag = "" ∨ 1024 < etag.utf8ByteSize then return cache
  let kept ← evict entry.size cache.entries cache.bytes
  return ⟨kept.entries ++ [entry], kept.bytes + entry.size⟩

inductive Operation where
  | remove (path : String)
  | get (path : String)
  | insert (path : String) (bytes : List UInt8) (etag : String)

def apply : Operation → Option CloudMetadataCache
  | .remove path => remove cache path
  | .get path => some (get cache path).2
  | .insert path bytes etag => insert cache path bytes etag

variable {cache}

structure Accounted (cache : CloudMetadataCache) : Prop where
  bytes : cache.bytes = (cache.entries.map Entry.size).sum
  bound : cache.bytes ≤ maxBytes
  count : cache.entries.length ≤ maxEntries

theorem perm_of_find {l : List Entry} (h : l.find? p = some entry) : l ~ entry :: l.eraseP p := by
  obtain ⟨hp, before, after, rfl, hb⟩ := find?_eq_some_iff_append.mp h
  rw [eraseP_append_right _ (by simpa using hb), List.eraseP_cons_of_pos hp]
  exact perm_middle

theorem Accounted.perm (h : Accounted ⟨l, n⟩) (hp : l ~ l') : Accounted ⟨l', n⟩ :=
  ⟨h.bytes.trans (hp.map _).sum_nat, h.bound, hp.length_eq ▸ h.count⟩

theorem Accounted.tail (h : Accounted ⟨entry :: l, n⟩) :
    entry.size ≤ n ∧ Accounted ⟨l, n - entry.size⟩ := by
  obtain ⟨hb, hbound, hc⟩ := h
  simp only [map_cons, sum_cons, length_cons] at hb hbound hc
  exact ⟨by omega, by simp; omega, by simp; omega, by simp; omega⟩

-- There is room at the latest when no entry is left.
theorem accounted_evict (h : Accounted ⟨l, n⟩) (hs : size ≤ maxBytes) :
    ∃ kept, evict size l n = some kept ∧ Accounted kept ∧
      kept.bytes + size ≤ maxBytes ∧ kept.entries.length < maxEntries := by
  fun_induction evict size l n
  case case1 hfull =>
    have hb := h.bytes
    simp [maxEntries] at hb hfull
    omega
  case case2 ih => exact ih h.tail.2
  case case3 hle _ => exact absurd h.tail.1 hle
  case case4 hroom =>
    rw [not_or, Nat.not_lt, Nat.not_le] at hroom
    exact ⟨_, rfl, h, hroom⟩

variable (h : Accounted cache)
include h

theorem accounted_get (path : String) : Accounted (get cache path).2 := by
  rw [get]
  split
  case h_1 => exact h
  case h_2 entry hf => exact h.perm ((perm_of_find hf).trans (perm_append_singleton ..).symm)

theorem accounted_remove (path : String) :
    ∃ left, remove cache path = some left ∧ Accounted left := by
  rw [remove]
  split
  case h_1 => exact ⟨cache, rfl, h⟩
  case h_2 entry hf =>
    obtain ⟨hs, hleft⟩ := (h.perm (perm_of_find hf)).tail
    exact ⟨_, if_pos hs, hleft⟩

theorem accounted_insert (path : String) (bytes : List UInt8) (etag : String) :
    ∃ next, insert cache path bytes etag = some next ∧ Accounted next := by
  obtain ⟨left, hr, hleft⟩ := accounted_remove h path
  rw [insert, hr]
  dsimp only [Option.bind_eq_bind, Option.bind_some]
  split
  case isTrue => exact ⟨left, rfl, hleft⟩
  case isFalse hfits =>
    rw [not_or, Nat.not_lt] at hfits
    obtain ⟨kept, he, hk, hb, hc⟩ := accounted_evict hleft hfits.1
    rw [he]
    exact ⟨_, rfl, by simp [hk.bytes], hb, length_append ▸ hc⟩

theorem accounted_apply (operation : Operation) :
    ∃ next, apply cache operation = some next ∧ Accounted next := by
  cases operation
  case remove path => exact accounted_remove h path
  case get path => exact ⟨_, rfl, accounted_get h path⟩
  case insert path bytes etag => exact accounted_insert h path bytes etag

omit h in
-- No operation takes more from the size than is there, or evicts from an empty cache.
theorem metadata_cache_is_accounted (operations : List Operation) :
    ∃ cache, operations.foldlM apply {} = some cache ∧ Accounted cache := by
  have hrun {cache} (h : Accounted cache) :
      ∃ next, operations.foldlM apply cache = some next ∧ Accounted next := by
    induction operations generalizing cache
    case nil => exact ⟨cache, rfl, h⟩
    case cons operation operations ih =>
      obtain ⟨next, hn, ha⟩ := accounted_apply h operation
      simpa [hn] using ih ha
  exact hrun ⟨rfl, Nat.zero_le _, Nat.zero_le _⟩

end NyaTerm.MetadataCache
