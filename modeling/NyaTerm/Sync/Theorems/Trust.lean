import NyaTerm.Lib.Maps
import NyaTerm.Sync.Theorems.JsonText
import NyaTerm.Sync.Trust

open Std

namespace NyaTerm

open ExtTreeMap

-- The numbers of the values are written as numbers are.
def Legible (values : SyncValues) : Prop :=
  ∀ (key : String) (value : SyncValue), values[key]? = some value → value.decode.WellFormed

section Identities

variable {values : SyncValues}

theorem hostIdentity_eq_some (h : hostIdentity key value = some (resource, v)) :
    key = (SyncFieldId.mk resource "identity").key ∧ v = .object [("identity", value.decode)] := by
  simp only [hostIdentity, Option.bind_eq_bind, Option.bind_eq_some_iff] at h
  obtain ⟨field, hf, h⟩ := h
  split at h
  case isTrue hc =>
    simp only [Bool.and_eq_true, beq_iff_eq] at hc
    obtain ⟨resource', name⟩ := field
    cases h
    cases hc.2
    exact ⟨(SyncFieldId.fromKey_eq_some.mp hf).2.symm, rfl⟩
  case isFalse => cases h

theorem resourceValues_eq_some : (resourceValues values)[resource]? = some v ↔
    ∃ key value, values[key]? = some value ∧ hostIdentity key value = some (resource, v) := by
  have hm : ∀ v,
      (resource, v) ∈ values.toList.filterMap (fun entry => hostIdentity entry.1 entry.2) ↔
      ∃ key value, values[key]? = some value ∧ hostIdentity key value = some (resource, v) := by
    intro v
    simp [List.mem_filterMap, mem_toList_iff_getElem?_eq_some]
  rw [resourceValues, getElem?_ofList_eq_some, hm]
  intro v w hv hw
  obtain ⟨k, x, hx, hv⟩ := (hm v).mp hv
  obtain ⟨l, y, hy, hw⟩ := (hm w).mp hw
  obtain ⟨rfl, rfl⟩ := hostIdentity_eq_some hv
  obtain ⟨rfl, rfl⟩ := hostIdentity_eq_some hw
  cases hx.symm.trans hy
  rfl

theorem wellFormed_resourceValues (h : Legible values) (resource : SyncResourceId) :
    ((resourceValues values)[resource]?.getD .null).WellFormed := by
  cases hr : (resourceValues values)[resource]?
  case none => exact trivial
  case some v =>
    obtain ⟨key, value, hv, hi⟩ := resourceValues_eq_some.mp hr
    obtain ⟨-, rfl⟩ := hostIdentity_eq_some hi
    exact ⟨h key value hv, trivial⟩

end Identities

theorem toUTF8_injective {s t : String} (h : s.toUTF8.data.toList = t.toUTF8.data.toList) : s = t :=
  String.toByteArray_inj.mp (ByteArray.ext (Array.toList_inj.mp h))

theorem encoding_injective {v w x y : Json}
    (h : TrustReview.encoding r v w = TrustReview.encoding s x y) : r = s ∧ v = x ∧ w = y := by
  cases r
  cases s
  simpa [TrustReview.encoding, and_assoc] using h

section Reviews

variable [Platform] {review : TrustReview}

-- What a review shows: an identity and its two values, of which one may be missing.
theorem mem_reviews : review ∈ reviews current desired ↔
    review = .new review.resource ((resourceValues current)[review.resource]?.getD .null)
      ((resourceValues desired)[review.resource]?.getD .null) ∧
    ¬ review.previous.same review.proposed := by
  simp only [reviews, List.mem_filterMap, ExtTreeSet.mem_toList, ExtTreeSet.mem_ofList,
    List.contains_iff_mem, List.mem_append, mem_keys]
  constructor
  case mp =>
    rintro ⟨resource, -, h⟩
    split at h
    case isTrue => cases h
    case isFalse hs =>
      cases h
      exact ⟨rfl, hs⟩
  case mpr =>
    rintro ⟨he, hs⟩
    have hp : review.previous = (resourceValues current)[review.resource]?.getD .null :=
      congrArg TrustReview.previous he
    have hq : review.proposed = (resourceValues desired)[review.resource]?.getD .null :=
      congrArg TrustReview.proposed he
    rw [hp, hq] at hs
    refine ⟨review.resource, ?_, by rw [if_neg hs, ← he]⟩
    by_contra hn
    rw [not_or] at hn
    rw [getElem?_eq_none hn.1, getElem?_eq_none hn.2] at hs
    exact hs rfl

theorem key_injective (h : (TrustReview.new r v w).key = (TrustReview.new s x y).key) : r = s :=
  congrArg SyncFieldId.resource (SyncFieldId.key_injective h)

theorem new_of_mem (h : review ∈ reviews current desired) :
    review = .new review.resource review.previous review.proposed := by
  rw [(mem_reviews.mp h).1]
  rfl

theorem eq_of_key (h : review ∈ reviews current desired) (ho : other ∈ reviews current desired)
    (hk : review.key = other.key) : review = other := by
  obtain ⟨he, -⟩ := mem_reviews.mp h
  obtain ⟨he', -⟩ := mem_reviews.mp ho
  rw [he, he'] at hk
  rw [he, he', key_injective hk]

theorem approvalsOf_eq_some : (approvalsOf (reviews current desired))[review.key]? =
    some review.token ↔
    ∃ other ∈ reviews current desired, other.key = review.key ∧ other.token = review.token := by
  rw [approvalsOf, getElem?_ofList_eq_some]
  · simp [List.mem_map]
  · intro v w hv hw
    obtain ⟨r, hr, hv⟩ := List.mem_map.mp hv
    obtain ⟨s, hs, hw⟩ := List.mem_map.mp hw
    obtain ⟨hk, rfl⟩ := Prod.mk.inj hv
    obtain ⟨hl, rfl⟩ := Prod.mk.inj hw
    rw [eq_of_key hr hs (hk.trans hl.symm)]

end Reviews

section Tokens

variable [Platform]

-- The bytes whose digests are the tokens of these reviews.
def encodings (reviews : List TrustReview) : List (List UInt8) :=
  reviews.map fun review =>
    (TrustReview.encoding review.resource review.previous review.proposed).toText.toUTF8.data.toList

variable {current desired current' : SyncValues}

theorem wellFormed_encoding (hc : Legible current) (hd : Legible desired)
    (h : review ∈ reviews current desired) :
    (TrustReview.encoding review.resource review.previous review.proposed).WellFormed := by
  rw [(mem_reviews.mp h).1]
  exact ⟨⟨trivial, trivial, trivial⟩, wellFormed_resourceValues hc _, wellFormed_resourceValues hd _,
    trivial⟩

-- The approvals of some reviews hold for exactly those pairs of states that are reviewed in no other
-- way, and so for the states themselves.
theorem approvals_bind_reviews (hc : Legible current) (hd : Legible desired) (hc' : Legible current')
    (hd' : Legible desired')
    (hi : ∀ x ∈ encodings (reviews current desired), ∀ y ∈ encodings (reviews current' desired'),
      digest x = digest y → x = y) :
    (approved current' desired' (approvalsOf (reviews current desired)) ↔
      ∀ review ∈ reviews current' desired', review ∈ reviews current desired) ∧
    approved current desired (approvalsOf (reviews current desired)) := by
  simp only [approved, List.all_eq_true, decide_eq_true_eq, approvalsOf_eq_some]
  refine ⟨⟨?_, ?_⟩, fun review h => ⟨review, h, rfl, rfl⟩⟩
  · intro h review hr
    obtain ⟨other, ho, -, ht⟩ := h review hr
    rw [new_of_mem ho, new_of_mem hr] at ht
    have hb := hi _ (List.mem_map_of_mem ho) _ (List.mem_map_of_mem hr) ht
    obtain ⟨hs, hp, hq⟩ := encoding_injective <| Json.toText_injective
      (wellFormed_encoding hc hd ho) (wellFormed_encoding hc' hd' hr) (toUTF8_injective hb)
    rwa [new_of_mem hr, ← hs, ← hp, ← hq, ← new_of_mem ho]
  · exact fun h review hr => ⟨review, h review hr, rfl, rfl⟩

end Tokens

namespace Trust

-- Digests that tell texts of different lengths apart.
@[reducible]
def byLength : Platform :=
  { Platform.sample with
    sha256 := fun bytes => Text.toHex 64 (bytes.length % 16 ^ 64)
    sha256_hex := fun _ => ⟨Text.length_toHex _ _, Text.isHex_toHex _ _⟩
    sha256_bool := fun h => absurd (Text.toHex_injective (by decide) (by decide) h) (by decide) }

local instance approving : Platform := byLength

def vncHost (id : String) : SyncResourceId := ⟨"vnc_known_host", id⟩

def withHost (values : SyncValues) (id fingerprint : String) : SyncValues :=
  values.insert (SyncFieldId.mk (vncHost id) "identity").key (.new (.string fingerprint))

def one : SyncValues := withHost ∅ "a" "first"

def two : SyncValues := withHost one "bc" "second"

theorem legible_empty : Legible ∅ := by
  intro key value h
  simp at h

variable {values : SyncValues}

theorem legible_withHost (h : Legible values) (id fingerprint : String) :
    Legible (withHost values id fingerprint) := by
  intro key value hv
  rw [withHost, getElem?_insert] at hv
  split at hv
  · cases hv
    exact trivial
  · exact h key value hv

def identity (fingerprint : String) : Json :=
  .object [("identity", .string fingerprint)]

theorem hostIdentity_vncHost {id : String} (h : id ≠ "") (fingerprint : String) :
    hostIdentity (SyncFieldId.mk (vncHost id) "identity").key (.new (.string fingerprint)) =
      some (vncHost id, identity fingerprint) := by
  rw [hostIdentity, SyncFieldId.fromKey_key ⟨by simp [vncHost], h, by simp⟩]
  rfl

variable {id : String}

theorem resourceValues_withHost (h : id ≠ "")
    (resource : SyncResourceId) : (resourceValues (withHost values id fingerprint))[resource]? =
      if resource = vncHost id then some (identity fingerprint)
      else (resourceValues values)[resource]? := by
  ext v
  rw [resourceValues_eq_some]
  split
  case isTrue he =>
    subst he
    constructor
    case mp =>
      rintro ⟨key, value, hv, hi⟩
      obtain ⟨rfl, rfl⟩ := hostIdentity_eq_some hi
      rw [withHost, getElem?_insert_self] at hv
      cases hv
      rfl
    case mpr =>
      rintro ⟨⟩
      exact ⟨_, _, getElem?_insert_self, hostIdentity_vncHost h fingerprint⟩
  case isFalse he =>
    rw [resourceValues_eq_some]
    have hk : ∀ key value, hostIdentity key value = some (resource, v) →
        (withHost values id fingerprint)[key]? = values[key]? := by
      intro key value hi
      obtain ⟨rfl, -⟩ := hostIdentity_eq_some hi
      rw [withHost, getElem?_insert, if_neg]
      intro hk
      have hk := LawfulEqCmp.eq_of_compare hk
      exact he (congrArg SyncFieldId.resource (SyncFieldId.key_injective hk)).symm
    constructor
    case mp =>
      rintro ⟨key, value, hv, hi⟩
      exact ⟨key, value, hk key value hi ▸ hv, hi⟩
    case mpr =>
      rintro ⟨key, value, hv, hi⟩
      exact ⟨key, value, (hk key value hi).symm ▸ hv, hi⟩

theorem mem_reviews_withHost (h : id ≠ "") : review ∈ reviews ∅ (withHost values id fingerprint) ↔
      review = .new (vncHost id) .null (identity fingerprint) ∨
      review.resource ≠ vncHost id ∧ review ∈ reviews ∅ values := by
  have he : resourceValues ∅ = ∅ := by simp [resourceValues]
  rw [mem_reviews, mem_reviews, resourceValues_withHost h, he]
  simp only [getElem?_empty, Option.getD_none]
  by_cases hr : review.resource = vncHost id
  case pos =>
    simp only [hr, if_true, Option.getD_some, ne_eq, not_true, false_and, or_false,
      and_iff_left_iff_imp]
    rintro hn
    rw [hn]
    exact Bool.false_ne_true
  case neg =>
    simp only [hr, if_false, ne_eq, not_false_eq_true, true_and, iff_or_self]
    rintro rfl
    exact (hr rfl).elim

theorem mem_reviews_one : review ∈ reviews ∅ one ↔
    review = .new (vncHost "a") .null (identity "first") := by
  have he : reviews ∅ ∅ = [] := by simp [reviews, resourceValues]
  rw [one, mem_reviews_withHost (by decide), he]
  simp

theorem mem_reviews_two : review ∈ reviews ∅ two ↔
    review = .new (vncHost "bc") .null (identity "second") ∨ review ∈ reviews ∅ one := by
  rw [two, mem_reviews_withHost (by decide), mem_reviews_one]
  refine or_congr_right ⟨And.right, fun h => ⟨?_, h⟩⟩
  rw [h]
  decide

theorem approved_one : approved ∅ one (approvalsOf (reviews ∅ two)) := by
  simp only [approved, List.all_eq_true, decide_eq_true_eq, approvalsOf_eq_some]
  exact fun review h => ⟨review, mem_reviews_two.mpr (.inr h), rfl, rfl⟩

theorem approvals_bind_reviews_two :
    (∀ review ∈ reviews ∅ one, review ∈ reviews ∅ two) ∧
    approved ∅ two (approvalsOf (reviews ∅ two)) := by
  have ho : Legible one := legible_withHost legible_empty _ _
  have hi : ∀ x ∈ encodings (reviews ∅ two), ∀ y ∈ encodings (reviews ∅ one),
      digest x = digest y → x = y := by
    intro x hx y hy h
    obtain ⟨r, hr, rfl⟩ := List.mem_map.mp hx
    obtain ⟨s, hs, rfl⟩ := List.mem_map.mp hy
    rw [mem_reviews_one] at hs
    rw [mem_reviews_two, mem_reviews_one] at hr
    rcases hr with rfl | rfl
    · subst hs
      have hl := Text.toHex_injective (Nat.mod_lt _ (by decide)) (Nat.mod_lt _ (by decide))
        (String.ofList_injective h)
      exact absurd hl (by decide +kernel)
    · rw [hs]
  have h := approvals_bind_reviews legible_empty (legible_withHost ho _ _) legible_empty ho hi
  exact ⟨h.1.mp approved_one, h.2⟩

-- Who agrees to two new hosts has agreed to one of them.
theorem approvals_cover_less :
    approved ∅ one (approvalsOf (reviews ∅ two)) ∧ reviews ∅ one ≠ reviews ∅ two := by
  refine ⟨approved_one, fun h => ?_⟩
  have hm : TrustReview.new (vncHost "bc") .null (identity "second") ∈ reviews ∅ one := by
    rw [h, mem_reviews_two]
    exact .inl rfl
  exact absurd (congrArg TrustReview.resource (mem_reviews_one.mp hm)) (by decide)

end Trust

end NyaTerm
