import Mathlib.Data.List.Sort

open Std

theorem getElem?_filter_key [Ord κ] [TransOrd κ] [LawfulEqOrd κ] (m : ExtTreeMap κ ν) (p : κ → Bool)
    (k : κ) : (m.filter fun k _ => p k)[k]? = if p k then m[k]? else none := by
  rw [ExtTreeMap.getElem?_filter']
  cases p k <;> cases m[k]? <;> simp

theorem mem_iff_getElem?_eq_some [Ord κ] [TransOrd κ] {m : ExtTreeMap κ ν} {k : κ} :
    k ∈ m ↔ ∃ v, m[k]? = some v := by
  rw [ExtTreeMap.mem_iff_isSome_getElem?, Option.isSome_iff_exists]

theorem getElem?_ofList_eq_some [Ord κ] [TransOrd κ] [LawfulEqOrd κ] [DecidableEq κ]
    {l : List (κ × ν)} {k : κ} (hu : ∀ v w, (k, v) ∈ l → (k, w) ∈ l → v = w) {v : ν} :
    (ExtTreeMap.ofList l)[k]? = some v ↔ (k, v) ∈ l := by
  have hi (l : List (κ × ν)) (t : ExtTreeMap κ ν) (w) (h : (t.insertMany l)[k]? = some w) :
      t[k]? = some w ∨ (k, w) ∈ l := by
    induction l generalizing t
    case nil => exact .inl (by simpa using h)
    case cons x l hi =>
      rw [ExtTreeMap.insertMany_cons] at h
      rcases hi _ h with h | h
      · rw [ExtTreeMap.getElem?_insert] at h
        grind
      · exact .inr (by simp [h])
  have hm {w} (h : (ExtTreeMap.ofList l)[k]? = some w) : (k, w) ∈ l := by
    rw [ExtTreeMap.ofList_eq_insertMany_empty] at h
    exact (hi l ∅ w h).resolve_left (by simp)
  constructor
  case mp => exact hm
  case mpr =>
    intro h
    have hk : k ∈ ExtTreeMap.ofList l := by
      simp only [ExtTreeMap.mem_ofList, List.contains_iff_mem, List.mem_map]
      exact ⟨_, h, rfl⟩
    obtain ⟨w, hw⟩ := mem_iff_getElem?_eq_some.mp hk
    rw [hw, hu w v (hm hw) h]

-- Tables built from a list: the entries with one key are folded into that key's value.
namespace Index

variable [Ord κ] [TransOrd κ] (key : α → κ) (step : Option β → α → β)

def build (xs : List α) : ExtTreeMap κ β :=
  xs.foldl (fun m x => m.alter (key x) fun b => some (step b x)) ∅

theorem getElem?_build [LawfulEqOrd κ] [DecidableEq κ] (xs : List α) (k : κ) :
    (build key step xs)[k]? =
      (xs.filter (key · = k)).foldl (fun b x => some (step b x)) none := by
  suffices h : ∀ m : ExtTreeMap κ β,
      (xs.foldl (fun m x => m.alter (key x) fun b => some (step b x)) m)[k]? =
        (xs.filter (key · = k)).foldl (fun b x => some (step b x)) m[k]? by
    rw [build, h ∅, ExtTreeMap.getElem?_empty]
  induction xs
  case nil => simp
  case cons x xs hi =>
    intro m
    rw [List.foldl_cons, hi, ExtTreeMap.getElem?_alter]
    by_cases hk : key x = k <;> simp [hk]

end Index

-- Updates of a finite map: a list of keys with the value each of them gets, or none to remove it.
namespace Patch

variable {ν : Type _} [Ord κ] [TransOrd κ]

def apply (m : ExtTreeMap κ ν) (updates : List (κ × Option ν)) : ExtTreeMap κ ν :=
  updates.foldl (fun m (k, v) => m.alter k fun _ => v) m

@[simp]
theorem apply_nil (m : ExtTreeMap κ ν) : apply m [] = m := rfl

@[simp]
theorem apply_cons (m : ExtTreeMap κ ν) (k v updates) :
    apply m ((k, v) :: updates) = apply (m.alter k fun _ => v) updates := rfl

theorem apply_append (m : ExtTreeMap κ ν) (us vs) :
    apply m (us ++ vs) = apply (apply m us) vs := by
  simp [apply]

variable [LawfulEqOrd κ]

theorem getElem?_apply_of_not_mem {m : ExtTreeMap κ ν} (h : ∀ v, (k, v) ∉ us) :
    (apply m us)[k]? = m[k]? := by
  induction us generalizing m
  case nil => rfl
  case cons u us hi =>
    have hk : u.1 ≠ k := by
      rintro rfl
      exact h u.2 (by simp)
    rw [apply_cons, hi fun v hv => h v (by simp [hv]), ExtTreeMap.getElem?_alter, if_neg]
    exact fun hc => hk (LawfulEqCmp.eq_of_compare hc)

theorem getElem?_apply_of_mem {m : ExtTreeMap κ ν} (h : (k, v) ∈ us) (hu : ∀ w, (k, w) ∈ us → w = v) :
    (apply m us)[k]? = v := by
  induction us generalizing m
  case nil => simp at h
  case cons u us hi =>
    by_cases hk : (k, v) ∈ us
    case pos => exact hi hk fun w hw => hu w (by simp [hw])
    have hn : ∀ w, (k, w) ∉ us := by
      intro w hw
      cases hu w (by simp [hw])
      exact hk hw
    obtain rfl : (k, v) = u := by simpa [hk] using h
    simp [getElem?_apply_of_not_mem hn]

end Patch
