import Mathlib.Data.List.Dedup
import Mathlib.Data.List.Perm.Subperm
import Mathlib.Logic.Relation

open List

-- Computations with loops whose end is not evident: `none` is a loop that has not ended within the
-- fuel. Chains of elements that name their successors are walked in this way.
namespace Walk

variable {ε α κ : Type}

abbrev Looping (ε α : Type) := ExceptT ε Option α

namespace Looping

def Succeeds (x : Looping ε α) (a : α) : Prop :=
  x.run = some (.ok a)

def Ends (x : Looping ε α) : Prop :=
  x.run.isSome

@[simp]
theorem succeeds_pure : Succeeds (pure a : Looping ε α) b ↔ a = b := by
  simp [Succeeds]

@[simp]
theorem succeeds_throw : ¬ Succeeds (throw e : Looping ε α) a := by
  simp [Succeeds]

@[simp]
theorem succeeds_bind : Succeeds (x >>= f) b ↔ ∃ a, Succeeds x a ∧ Succeeds (f a) b := by
  simp only [Succeeds, ExceptT.run_bind]
  cases hx : x.run
  case none => simp
  case some r => cases r <;> simp

theorem succeeds_bind_unit : Succeeds (x >>= f) b ↔ Succeeds x () ∧ Succeeds (f ()) b := by
  rw [succeeds_bind]
  constructor
  case mp =>
    rintro ⟨_, hx, hf⟩
    exact ⟨hx, hf⟩
  case mpr => exact fun h => ⟨(), h⟩

@[simp]
theorem ends_pure : Ends (pure a : Looping ε α) := rfl

@[simp]
theorem ends_throw : Ends (throw e : Looping ε α) := rfl

theorem Ends.bind (hx : Ends x) (hf : ∀ a, Ends (f a)) : Ends (x >>= f) := by
  rw [Ends, ExceptT.run_bind]
  have ⟨r, hr⟩ := Option.isSome_iff_exists.mp hx
  rw [hr]
  cases r
  case error => rfl
  case ok a => exact hf a

theorem succeeds_forM {xs : List α} : Succeeds (xs.forM f) () ↔ ∀ x ∈ xs, Succeeds (f x) () := by
  induction xs
  case nil => simp
  case cons x xs hi =>
    rw [forM_eq_forM] at hi ⊢
    rw [forM_cons, succeeds_bind_unit, hi, forall_mem_cons]

theorem ends_forM {xs : List α} (h : ∀ x ∈ xs, Ends (f x)) : Ends (xs.forM f) := by
  induction xs
  case nil => exact ends_pure
  case cons x xs hi =>
    exact (h x (.head _ ..)).bind fun _ => hi fun y hy => h y (mem_cons_of_mem x hy)

end Looping

open Looping

section Chain

variable [DecidableEq κ] (id : α → κ) (next : α → Except ε (Option α)) (repeated : ε)

-- Follows a chain to its end and refuses one that comes back to an element.
def chain : (fuel : Nat) → (seen : List κ) → Option α → Looping ε Unit
  | _, _, none => pure ()
  | 0, _, some _ => ExceptT.mk none
  | fuel + 1, seen, some x => do
    if id x ∈ seen then
      throw repeated
    else
      let y ← ExceptT.mk (some (next x))
      chain fuel (id x :: seen) y

variable {id next repeated} {xs : List α}

theorem ends_chain (hx : ∀ x ∈ xs, ∀ y, next x = .ok (some y) → y ∈ xs) (hn : seen.Nodup)
    (hs : ∀ k ∈ seen, k ∈ xs.map id) (hf : xs.length < fuel + seen.length) :
    ∀ o : Option α, (∀ x ∈ o, x ∈ xs) → Ends (chain id next repeated fuel seen o) := by
  induction fuel generalizing seen
  case zero =>
    have hl := (hn.subperm hs).length_le
    rw [length_map] at hl
    omega
  case succ fuel hi =>
    intro o ho
    cases o
    case none => exact ends_pure
    case some x =>
      rw [chain]
      split
      case isTrue => exact ends_throw
      case isFalse hk =>
        cases hy : next x
        case error => rfl
        case ok y =>
          refine hi (nodup_cons.mpr ⟨hk, hn⟩) ?_ (by simp; omega) y ?_
          · intro k hk
            rcases mem_cons.mp hk with rfl | hk
            · exact mem_map_of_mem (ho x rfl)
            · exact hs k hk
          · rintro z rfl
            exact hx x (ho x rfl) z hy

theorem succeeds_chain_some : Succeeds (chain id next repeated (fuel + 1) seen (some x)) () ↔
    id x ∉ seen ∧ ∃ y, next x = .ok y ∧ Succeeds (chain id next repeated fuel (id x :: seen) y) () := by
  rw [chain]
  split
  case isTrue h => simp [h]
  case isFalse h =>
    simp only [h, not_false_eq_true, true_and, succeeds_bind]
    simp [Succeeds]

theorem acc_of_chain (h : Succeeds (chain id next repeated fuel seen (some x)) ()) :
    Acc (fun y x => next x = .ok (some y)) x := by
  induction fuel generalizing seen x
  case zero => cases h
  case succ fuel hi =>
    obtain ⟨-, z, hz, h⟩ := succeeds_chain_some.mp h
    refine .intro x fun y hy => ?_
    cases hz.symm.trans hy
    exact hi h

-- Conversely, a chain that does not come back to an element ends well. What has been seen lies
-- before the current element.
theorem succeeds_chain (hx : ∀ x ∈ xs, ∃ y, next x = .ok y ∧ ∀ z ∈ y, z ∈ xs)
    (hd : ∀ x ∈ xs, ∀ y ∈ xs, id x = id y → x = y)
    (hc : ∀ x ∈ xs, ¬ Relation.TransGen (fun x y => next x = .ok (some y)) x x) (hn : seen.Nodup)
    (hf : xs.length < fuel + seen.length) (ho : ∀ x ∈ o, x ∈ xs)
    (hs : ∀ k ∈ seen, ∃ y ∈ xs, id y = k ∧
      ∀ x ∈ o, Relation.TransGen (fun x y => next x = .ok (some y)) y x) :
    Succeeds (chain id next repeated fuel seen o) () := by
  induction fuel generalizing seen o
  case zero =>
    have hk : ∀ k ∈ seen, k ∈ xs.map id := by
      intro k hk
      obtain ⟨y, hy, rfl, -⟩ := hs k hk
      exact mem_map_of_mem hy
    have hl := (hn.subperm hk).length_le
    rw [length_map] at hl
    omega
  case succ fuel hi =>
    cases o
    case none => exact succeeds_pure.mpr rfl
    case some x =>
      have hm := ho x rfl
      have hk : id x ∉ seen := by
        intro hk
        have ⟨y, hy, he, ht⟩ := hs _ hk
        cases hd y hy x hm he
        exact hc x hm (ht x rfl)
      have ⟨o, he, ho⟩ := hx x hm
      refine succeeds_chain_some.mpr ⟨hk, o, he, hi (nodup_cons.mpr ⟨hk, hn⟩)
        (by simp only [length_cons]; omega) ho ?_⟩
      intro k hk
      rcases mem_cons.mp hk with rfl | hk
      · refine ⟨x, hm, rfl, ?_⟩
        rintro y rfl
        exact .single he
      · have ⟨y, hy, he', ht⟩ := hs k hk
        refine ⟨y, hy, he', ?_⟩
        rintro z rfl
        exact (ht x rfl).tail he

end Chain

theorem not_rel_self (h : Acc r x) : ¬ r x x := by
  induction h
  case intro x _ hi => exact fun hr => hi x hr hr

section Forest

variable [DecidableEq κ] (id : α → κ) (parent : α → Option κ) (admitted : α → Bool) (invalid : ε)
variable (xs : List α)

-- What a map that was collected from the elements holds for a key.
def last (k : κ) : Option α :=
  xs.reverse.find? fun x => id x = k

-- The element that this one names, if it is there and may be named.
def follow (x : α) : Except ε (Option α) :=
  match parent x with
  | none => .ok none
  | some k =>
    match last id xs k with
    | none => .error invalid
    | some y => if admitted y then .ok (some y) else .error invalid

-- Which key names which.
def Names (k l : κ) : Prop :=
  ∃ x ∈ xs, id x = k ∧ parent x = some l

variable {id parent admitted invalid xs}

theorem last_eq_some (h : last id xs k = some y) : y ∈ xs ∧ id y = k := by
  have hm := mem_of_find?_eq_some h
  have hp := find?_some h
  exact ⟨mem_reverse.mp hm, of_decide_eq_true hp⟩

theorem last_eq_none : last id xs k = none ↔ ∀ x ∈ xs, id x ≠ k := by
  simp [last]

theorem follow_eq_some : follow id parent admitted invalid xs x = .ok (some y) ↔
    ∃ k, parent x = some k ∧ last id xs k = some y ∧ admitted y := by
  rw [follow]
  cases parent x
  case none => simp
  case some k =>
    cases hl : last id xs k
    case none => simp [hl]
    case some z => by_cases ha : admitted z <;> simp [hl, ha] <;> grind

theorem mem_of_follow (h : follow id parent admitted invalid xs x = .ok (some y)) : y ∈ xs := by
  obtain ⟨k, -, hl, -⟩ := follow_eq_some.mp h
  exact (last_eq_some hl).1

section

variable (hd : (xs.map id).Nodup) (hr : ∀ x ∈ xs, ∀ k, parent x = some k → ∃ y ∈ xs, id y = k ∧ admitted y)
include hd hr

theorem exists_follow (hx : x ∈ xs)
    (hk : parent x = some k) :
    ∃ y ∈ xs, id y = k ∧ follow id parent admitted invalid xs x = .ok (some y) := by
  have ⟨y, hy, he, ha⟩ := hr x hx k hk
  refine ⟨y, hy, he, follow_eq_some.mpr ⟨k, hk, ?_, ha⟩⟩
  cases hl : last id xs k
  case none => exact (last_eq_none.mp hl y hy he).elim
  case some z =>
    have ⟨hz, rfl⟩ := last_eq_some hl
    rw [inj_on_of_nodup_map hd hz hy he.symm]

theorem transGen_follow (h : Relation.TransGen (Names id parent xs) k l) :
    ∃ x ∈ xs, id x = k ∧ ∃ y ∈ xs, id y = l ∧
      Relation.TransGen (fun x y => follow id parent admitted invalid xs x = .ok (some y)) x y := by
  induction h
  case single l h =>
    obtain ⟨x, hx, rfl, hp⟩ := h
    obtain ⟨y, hy, rfl, hf⟩ := exists_follow hd hr hx hp
    exact ⟨x, hx, rfl, y, hy, rfl, .single hf⟩
  case tail l m _ h hi =>
    obtain ⟨x, hx, rfl, y, hy, rfl, ht⟩ := hi
    have ⟨y', hy', he, hp⟩ := h
    cases inj_on_of_nodup_map hd hy hy' he.symm
    obtain ⟨z, hz, rfl, hf⟩ := exists_follow hd hr hy hp
    exact ⟨x, hx, rfl, z, hz, rfl, ht.tail hf⟩

end

theorem transGen_names (hx : x ∈ xs)
    (h : Relation.TransGen (fun x y => follow id parent admitted invalid xs x = .ok (some y)) x y) :
    y ∈ xs ∧ Relation.TransGen (Names id parent xs) (id x) (id y) := by
  have hs : ∀ x ∈ xs, ∀ y, follow id parent admitted invalid xs x = .ok (some y) →
      y ∈ xs ∧ Names id parent xs (id x) (id y) := by
    intro x hx y h
    obtain ⟨k, hk, hl, -⟩ := follow_eq_some.mp h
    have ⟨hy, rfl⟩ := last_eq_some hl
    exact ⟨hy, x, hx, rfl, hk⟩
  induction h
  case single y h => exact ⟨(hs x hx y h).1, .single (hs x hx y h).2⟩
  case tail y z _ h hi => exact ⟨(hs y hi.1 z h).1, hi.2.tail (hs y hi.1 z h).2⟩

-- The chains from all elements end well exactly if the names are those of elements that may be named,
-- and no key reaches itself.
theorem forest_iff (hd : (xs.map id).Nodup) (hf : xs.length < fuel) :
    (∀ x ∈ xs, Succeeds (chain id (follow id parent admitted invalid xs) invalid fuel [] (some x)) ())
      ↔ (∀ x ∈ xs, ∀ k, parent x = some k → ∃ y ∈ xs, id y = k ∧ admitted y) ∧
        ∀ k, ¬ Relation.TransGen (Names id parent xs) k k := by
  constructor
  case mp =>
    intro h
    have hr : ∀ x ∈ xs, ∀ k, parent x = some k → ∃ y ∈ xs, id y = k ∧ admitted y := by
      intro x hx k hk
      obtain ⟨n, rfl⟩ : ∃ n, fuel = n + 1 := ⟨fuel - 1, by omega⟩
      obtain ⟨-, o, ho, -⟩ := succeeds_chain_some.mp (h x hx)
      cases o
      case none =>
        rw [follow, hk] at ho
        grind
      case some y =>
        have ⟨l, hl, hy, ha⟩ := follow_eq_some.mp ho
        cases hk.symm.trans hl
        exact ⟨y, (last_eq_some hy).1, (last_eq_some hy).2, ha⟩
    refine ⟨hr, fun k hk => ?_⟩
    obtain ⟨x, hx, rfl, y, hy, he, ht⟩ := transGen_follow hd hr hk
    cases inj_on_of_nodup_map hd hy hx he
    exact not_rel_self (acc_of_chain (h x hx)).transGen (Relation.transGen_swap.mpr ht)
  case mpr =>
    rintro ⟨hr, hc⟩ x hx
    refine succeeds_chain ?_ (fun x hx y hy => inj_on_of_nodup_map hd hx hy) ?_ nodup_nil
      (by simpa) (by simpa) (fun k hk => (not_mem_nil hk).elim)
    · intro x hx
      cases ho : parent x
      case none => exact ⟨none, by rw [follow, ho], fun z hz => (Option.not_mem_none z hz).elim⟩
      case some k =>
        obtain ⟨y, hy, -, hf⟩ := exists_follow hd hr hx ho
        exact ⟨some y, hf, by simpa using hy⟩
    · intro x hx ht
      exact hc (id x) (transGen_names hx ht).2

end Forest

end Walk
