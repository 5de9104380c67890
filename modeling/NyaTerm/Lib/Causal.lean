import Mathlib.Data.List.Sort

open Std

namespace Causal

open ExtTreeMap

-- The identity of an operation: a Lamport counter, ties broken by the authoring actor.
structure OpId (α : Type _) where
  counter : Nat
  actor : α
  deriving DecidableEq

instance [Ord α] : Ord (OpId α) where
  compare := compareLex (compareOn OpId.counter) (compareOn OpId.actor)

instance [Ord α] [TransOrd α] : TransOrd (OpId α) :=
  inferInstanceAs <| TransCmp (compareLex (compareOn OpId.counter) (compareOn OpId.actor))

theorem OpId.compare_eq [Ord α] (i j : OpId α) :
    compare i j = (compare i.counter j.counter).then (compare i.actor j.actor) := rfl

instance [Ord α] [LawfulEqOrd α] : LawfulEqOrd (OpId α) where
  compare_self := by simp [OpId.compare_eq]
  eq_of_compare {i j} h := by
    cases i; cases j
    simpa [OpId.compare_eq, Ordering.then_eq_eq] using h

theorem OpId.counter_le_of_compare [Ord α] {i j : OpId α} (h : (compare i j).isLE) :
    i.counter ≤ j.counter := by
  rw [OpId.compare_eq] at h
  by_contra hc
  have hg : compare i.counter j.counter = .gt := Nat.compare_eq_gt.mpr (by omega)
  simp [hg] at h

-- A put on a register. `pred` lists the operations of that register it overwrites.
structure Put (α κ ν : Type _) where
  key : κ
  value : ν
  pred : List (OpId α)
  deriving DecidableEq

-- A grow-only set of puts on named registers. A put only overwrites puts of its own register that
-- the document holds, and its counter is above theirs.
@[ext]
structure Document (α κ ν : Type _) [Ord α] [TransOrd α] where
  ops : ExtTreeMap (OpId α) (Put α κ ν)
  causal : ∀ {i : OpId α} {p : Put α κ ν}, ops[i]? = some p → ∀ j ∈ p.pred,
    ∃ q : Put α κ ν, ops[j]? = some q ∧ q.key = p.key ∧ j.counter < i.counter

namespace Document

variable {κ ν : Type _} [Ord α] [TransOrd α]

def op? (d : Document α κ ν) (i : OpId α) : Option (Put α κ ν) :=
  d.ops[i]?

variable {d : Document α κ ν}

theorem pred_held {i p} (h : d.op? i = some p) {j} (hj : j ∈ p.pred) :
    ∃ q, d.op? j = some q ∧ q.key = p.key ∧ j.counter < i.counter :=
  d.causal h j hj

instance : EmptyCollection (Document α κ ν) where
  emptyCollection := { ops := ∅, causal := by simp }

@[simp]
theorem op?_empty (i) : (∅ : Document α κ ν).op? i = none :=
  getElem?_empty

theorem ext_op? [LawfulEqOrd α] (h : ∀ i, d.op? i = e.op? i) : d = e := by
  ext1
  exact ext_getElem? h

instance : LE (Document α κ ν) where
  le d e := ∀ i p, d.op? i = some p → e.op? i = some p

theorem le_refl (d : Document α κ ν) : d ≤ d :=
  fun _ _ h => h

variable {e : Document α κ ν}

theorem le_trans (h₁ : d ≤ e) (h₂ : e ≤ f) : d ≤ f :=
  fun _ _ h => h₂ _ _ (h₁ _ _ h)

theorem le_antisymm [LawfulEqOrd α] (h₁ : d ≤ e) (h₂ : e ≤ d) : d = e := by
  apply ext_op?
  intro i
  apply Option.ext
  exact fun p => ⟨h₁ i p, h₂ i p⟩

theorem empty_le (d : Document α κ ν) : ∅ ≤ d := by
  intro i p h
  simp at h

def Overwritten (d : Document α κ ν) (i : OpId α) : Prop :=
  ∃ j p, d.op? j = some p ∧ i ∈ p.pred

theorem Overwritten.mono {i} (h : d ≤ e) : d.Overwritten i → e.Overwritten i
  | ⟨j, p, hj, hi⟩ => ⟨j, p, h _ _ hj, hi⟩

theorem Overwritten.held {i} : d.Overwritten i → ∃ p, d.op? i = some p
  | ⟨_, _, hj, hi⟩ => have ⟨q, hq, _⟩ := pred_held hj hi; ⟨q, hq⟩

-- An operation is visible on a register when no other operation has overwritten it.
structure Visible (d : Document α κ ν) (k : κ) (i : OpId α) (v : ν) : Prop where
  held : ∃ p, d.op? i = some p ∧ p.key = k ∧ p.value = v
  current : ¬d.Overwritten i

theorem Visible.of_le {k i v p} (h : d ≤ e) (hv : e.Visible k i v)
    (hi : d.op? i = some p) : d.Visible k i v where
  held := by
    have ⟨q, hq, hk, hw⟩ := hv.held
    cases hq ▸ h _ _ hi
    exact ⟨p, hi, hk, hw⟩
  current := mt (Overwritten.mono h) hv.current

theorem Visible.value_unique {k k' i v w}
    (h₁ : d.Visible k i v) (h₂ : d.Visible k' i w) : k = k' ∧ v = w := by
  have ⟨p, hp, hk, hv⟩ := h₁.held
  have ⟨q, hq, hk', hw⟩ := h₂.held
  cases hp ▸ hq
  exact ⟨hk ▸ hk', hv ▸ hw⟩

-- The largest counter of the document; a new operation takes the next one.
def maxOp (d : Document α κ ν) : Nat :=
  d.ops.maxKey?.elim 0 (·.counter)

theorem counter_le_maxOp {i p} (h : d.op? i = some p) :
    i.counter ≤ d.maxOp := by
  have hm : i ∈ d.ops := by
    rw [mem_iff_isSome_getElem?]
    exact Option.isSome_of_mem h
  have hs := isSome_maxKey?_of_mem hm
  have hl := le_maxKey?_of_mem hm rfl
  have hc := OpId.counter_le_of_compare hl
  rw [maxOp, ← Option.some_get hs]
  exact hc

theorem op?_next (d : Document α κ ν) (a : α) : d.op? ⟨d.maxOp + 1, a⟩ = none := by
  by_contra h
  have ⟨p, hp⟩ := Option.ne_none_iff_exists'.mp h
  exact Nat.not_succ_le_self _ (counter_le_maxOp hp)

-- Every written register shows at least one operation: one with the largest counter among those
-- of the register cannot have been overwritten.
theorem exists_visible {i p} (h : d.op? i = some p) :
    ∃ j v, d.Visible p.key j v := by
  induction hn : d.maxOp - i.counter using Nat.strongRecOn generalizing i p
  case _ n hi =>
    by_cases ho : d.Overwritten i
    case neg => exact ⟨i, p.value, ⟨p, h, rfl, rfl⟩, ho⟩
    have ⟨j, q, hj, hp⟩ := ho
    have ⟨p', hp', hk, hc⟩ := pred_held hj hp
    cases h ▸ hp'
    have := counter_le_maxOp hj
    exact hk ▸ hi (d.maxOp - j.counter) (by omega) hj rfl

section

variable [DecidableEq α]

def overwritten (d : Document α κ ν) (i : OpId α) : Bool :=
  d.ops.toList.any (i ∈ ·.2.pred)

theorem overwritten_iff [LawfulEqOrd α] {i} :
    d.overwritten i ↔ d.Overwritten i := by
  simp [overwritten, Overwritten, op?]

variable [DecidableEq κ]

-- The visible operations of a register, in the order of their identities.
def getAll (d : Document α κ ν) (k : κ) : List (ν × OpId α) :=
  d.ops.toList.filterMap fun (i, p) =>
    if p.key = k ∧ !d.overwritten i then some (p.value, i) else none

theorem getAll_sorted (d : Document α κ ν) (k : κ) :
    (d.getAll k).Pairwise (fun a b => compare a.2 b.2 = .lt) := by
  refine List.Pairwise.filterMap _ ?_ ordered_keys_toList
  rintro ⟨i, p⟩ ⟨j, q⟩ hl a ha b hb
  simp only at ha hb
  split at ha <;> split at hb <;> simp at ha hb
  simpa [← ha, ← hb] using hl

variable [LawfulEqOrd α]

theorem getAll_nodup (d : Document α κ ν) (k : κ) : (d.getAll k).Nodup :=
  (getAll_sorted d k).imp fun {a b} hl he => by subst he; simp at hl

theorem mem_getAll {k v i} : (v, i) ∈ d.getAll k ↔ d.Visible k i v := by
  simp only [getAll, List.mem_filterMap, Prod.exists, mem_toList_iff_getElem?_eq_some]
  constructor
  case mp =>
    rintro ⟨j, p, hp, h⟩
    split at h <;> simp at h
    case isTrue hc =>
      have ⟨rfl, rfl⟩ := h
      exact ⟨⟨p, hp, hc.1, rfl⟩, by simpa [← overwritten_iff] using hc.2⟩
  case mpr =>
    rintro ⟨⟨p, hp, hk, rfl⟩, hc⟩
    refine ⟨i, p, hp, ?_⟩
    rw [← overwritten_iff] at hc
    simp [hk, hc]

theorem getAll_eq (h : ∀ i v, d.Visible k i v ↔ e.Visible l i v) : d.getAll k = e.getAll l := by
  refine List.Perm.eq_of_pairwise ?_ (getAll_sorted d k) (getAll_sorted e l) ?_
  · exact fun a b _ _ h₁ h₂ => absurd h₂ (OrientedCmp.not_lt_of_lt h₁)
  apply (List.perm_ext_iff_of_nodup (getAll_nodup d k) (getAll_nodup e l)).mpr
  simp [mem_getAll, h]

theorem getAll_eq_of_le (h : d ≤ e) (hk : ∀ i p, e.op? i = some p → p.key = k → d.op? i = some p) :
    e.getAll k = d.getAll k := by
  refine getAll_eq fun i v => ⟨fun hv => ?_, fun ⟨⟨p, hp, hpk, hpv⟩, hc⟩ => ?_⟩
  · have ⟨p, hp, hpk, _⟩ := hv.held
    exact hv.of_le h (hk i p hp hpk)
  · refine ⟨⟨p, h _ _ hp, hpk, hpv⟩, fun ⟨j, q, hq, hi⟩ => hc ?_⟩
    have ⟨p', hp', hpq, _⟩ := pred_held hq hi
    cases h _ _ hp ▸ hp'
    exact ⟨j, q, hk j q hq (hpq ▸ hpk), hi⟩

theorem getAll_eq_singleton {k i v} (h : d.Visible k i v)
    (hu : ∀ j w, d.Visible k j w → j = i) : d.getAll k = [(v, i)] := by
  have hp : (d.getAll k).Perm [(v, i)] := by
    apply (List.perm_ext_iff_of_nodup (getAll_nodup d k) (List.nodup_singleton _)).mpr
    rintro ⟨w, j⟩
    simp only [mem_getAll, List.mem_singleton, Prod.mk.injEq]
    constructor
    case mp =>
      intro hw
      cases hu _ _ hw
      exact ⟨(hw.value_unique h).2, rfl⟩
    case mpr =>
      rintro ⟨rfl, rfl⟩
      exact h
  exact List.perm_singleton.mp hp

end

section Keys

variable [DecidableEq α] [Ord κ] [TransOrd κ]

-- The registers that show an operation, in their order.
def keys (d : Document α κ ν) : List κ :=
  ExtTreeSet.ofList (d.ops.toList.filterMap fun (i, p) =>
    if !d.overwritten i then some p.key else none) |>.toList

theorem mem_keys [LawfulEqOrd α] [LawfulEqOrd κ] [DecidableEq κ] {k} :
    k ∈ d.keys ↔ ∃ i p, d.op? i = some p ∧ p.key = k := by
  simp only [keys, ExtTreeSet.mem_toList, ExtTreeSet.mem_ofList, List.contains_iff_mem,
    List.mem_filterMap, Prod.exists, mem_toList_iff_getElem?_eq_some]
  constructor
  case mp =>
    rintro ⟨i, p, hp, h⟩
    split at h <;> simp at h
    exact ⟨i, p, hp, h⟩
  case mpr =>
    rintro ⟨i, p, hp, rfl⟩
    have ⟨j, v, ⟨q, hq, hk, _⟩, hc⟩ := exists_visible hp
    refine ⟨j, q, hq, ?_⟩
    simp [hk, overwritten_iff, hc]

end Keys

-- Two documents agree when no identity stands for different operations in them.
def Agrees (d e : Document α κ ν) : Prop :=
  ∀ i p q, d.op? i = some p → e.op? i = some q → p = q

namespace Agrees

theorem refl (d : Document α κ ν) : d.Agrees d := by
  intro i p q hp hq
  cases hp ▸ hq
  rfl

theorem symm (h : d.Agrees e) : e.Agrees d :=
  fun i p q hp hq => (h i q p hq hp).symm

theorem empty (d : Document α κ ν) : d.Agrees ∅ := by
  intro i p q _ hq
  simp at hq

theorem of_le (h₁ : d ≤ f) (h₂ : e ≤ f) : d.Agrees e := by
  intro i p q hp hq
  cases h₁ _ _ hp ▸ h₂ _ _ hq
  rfl

end Agrees

section Merge

instance [LawfulEqOrd α] [DecidableEq α] [DecidableEq κ] [DecidableEq ν] (d e : Document α κ ν) :
    Decidable (d.Agrees e) :=
  decidable_of_iff (∀ x ∈ d.ops.toList, ∀ q, e.op? x.1 = some q → x.2 = q) <| by
    simp only [Agrees, Prod.forall, ExtTreeMap.mem_toList_iff_getElem?_eq_some]
    exact ⟨fun h i p q hp hq => h i p hp q hq, fun h i p hp q hq => h i p q hp hq⟩

def join (d e : Document α κ ν) (h : d.Agrees e) : Document α κ ν where
  ops := d.ops ∪ e.ops
  causal {i p} hi j hj := by
    simp only [ExtTreeMap.getElem?_union, Option.or_eq_some_iff] at hi ⊢
    rcases hi with hi | ⟨-, hi⟩
    case inl =>
      obtain ⟨q, hq, hk, hc⟩ := e.causal hi j hj
      exact ⟨q, .inl hq, hk, hc⟩
    case inr =>
      obtain ⟨q, hq, hk, hc⟩ := d.causal hi j hj
      cases he : e.op? j
      case none => exact ⟨q, .inr ⟨he, hq⟩, hk, hc⟩
      case some q' =>
        cases h _ _ _ hq he
        exact ⟨q, .inl he, hk, hc⟩

theorem op?_join {h i p} :
    (d.join e h).op? i = some p ↔ d.op? i = some p ∨ e.op? i = some p := by
  simp only [join, op?, getElem?_union, Option.or_eq_some_iff]
  constructor
  case mp => rintro (hp | ⟨-, hp⟩) <;> simp [hp]
  case mpr =>
    rintro (hp | hp)
    case inr => exact .inl hp
    case inl =>
      cases he : e.op? i
      case none => exact .inr ⟨he, hp⟩
      case some q =>
        cases h _ _ _ hp he
        exact .inl he

theorem le_join_left (h) : d ≤ d.join e h :=
  fun _ _ hp => op?_join.mpr (.inl hp)

theorem le_join_right (h) : e ≤ d.join e h :=
  fun _ _ hp => op?_join.mpr (.inr hp)

theorem join_le {h} (h₁ : d ≤ f) (h₂ : e ≤ f) : d.join e h ≤ f := by
  intro i p hp
  rcases op?_join.mp hp with hp | hp
  · exact h₁ _ _ hp
  · exact h₂ _ _ hp

theorem join_eq_left [LawfulEqOrd α] {h} (hl : e ≤ d) : d.join e h = d :=
  le_antisymm (join_le (le_refl d) hl) (le_join_left h)

theorem overwritten_join {h i} :
    (d.join e h).Overwritten i ↔ d.Overwritten i ∨ e.Overwritten i := by
  constructor
  case mp =>
    rintro ⟨j, p, hp, hi⟩
    rcases op?_join.mp hp with hp | hp
    · exact .inl ⟨j, p, hp, hi⟩
    · exact .inr ⟨j, p, hp, hi⟩
  case mpr =>
    rintro (ho | ho)
    · exact ho.mono (le_join_left h)
    · exact ho.mono (le_join_right h)

theorem visible_join {h k i v} : (d.join e h).Visible k i v ↔
    (d.Visible k i v ∧ ¬e.Overwritten i) ∨ (e.Visible k i v ∧ ¬d.Overwritten i) := by
  constructor
  case mp =>
    rintro ⟨⟨p, hp, hk, hv⟩, hc⟩
    rw [overwritten_join, not_or] at hc
    rcases op?_join.mp hp with hp | hp
    · exact .inl ⟨⟨⟨p, hp, hk, hv⟩, hc.1⟩, hc.2⟩
    · exact .inr ⟨⟨⟨p, hp, hk, hv⟩, hc.2⟩, hc.1⟩
  case mpr =>
    rintro (⟨⟨⟨p, hp, hk, hv⟩, hc⟩, hn⟩ | ⟨⟨⟨p, hp, hk, hv⟩, hc⟩, hn⟩)
    · exact ⟨⟨p, op?_join.mpr (.inl hp), hk, hv⟩, by simp [overwritten_join, hc, hn]⟩
    · exact ⟨⟨p, op?_join.mpr (.inr hp), hk, hv⟩, by simp [overwritten_join, hc, hn]⟩

variable [LawfulEqOrd α] [DecidableEq α] [DecidableEq κ] [DecidableEq ν]

-- Merging is union. It is refused when the two documents use one identity differently.
def merge (d e : Document α κ ν) : Option (Document α κ ν) :=
  if h : d.Agrees e then some (d.join e h) else none

theorem merge_of_agrees (h : d.Agrees e) : d.merge e = some (d.join e h) := by
  simp [merge, h]

theorem merge_eq_some : d.merge e = some m ↔ ∃ h, d.join e h = m := by
  unfold merge
  split <;> simp_all

end Merge

section Put

variable [DecidableEq α] [DecidableEq κ] [LawfulEqOrd α]

-- Appends an operation that overwrites everything its register currently shows.
def append (d : Document α κ ν) (a : α) (k : κ) (v : ν) : Document α κ ν where
  ops := d.ops.insert ⟨d.maxOp + 1, a⟩ ⟨k, v, (d.getAll k).map Prod.snd⟩
  causal {i p} hi j hj := by
    have key {j q} (hq : d.op? j = some q) :
        (d.ops.insert ⟨d.maxOp + 1, a⟩ ⟨k, v, (d.getAll k).map Prod.snd⟩)[j]? = some q := by
      rw [ExtTreeMap.getElem?_insert, if_neg]
      · exact hq
      · intro hc
        cases LawfulEqCmp.eq_of_compare hc
        simp [op?_next] at hq
    rw [ExtTreeMap.getElem?_insert] at hi
    split at hi
    case isTrue hc =>
      cases LawfulEqCmp.eq_of_compare hc
      simp only [Option.some.injEq] at hi
      subst hi
      simp only [List.mem_map, Prod.exists, exists_eq_right, mem_getAll] at hj
      obtain ⟨w, ⟨q, hq, hk, _⟩, _⟩ := hj
      exact ⟨q, key hq, hk, Nat.lt_succ_of_le (counter_le_maxOp hq)⟩
    case isFalse =>
      obtain ⟨q, hq, hk, hc⟩ := d.causal hi j hj
      exact ⟨q, key hq, hk, hc⟩

theorem op?_append {a k v i p} : (d.append a k v).op? i = some p ↔
    d.op? i = some p ∨ (i = ⟨d.maxOp + 1, a⟩ ∧ p = ⟨k, v, (d.getAll k).map Prod.snd⟩) := by
  simp only [append, op?, getElem?_insert]
  split
  case isTrue hc =>
    cases LawfulEqCmp.eq_of_compare hc
    have hn := op?_next d a
    simp only [op?] at hn
    simp [hn, eq_comm]
  case isFalse hc =>
    have hi : i ≠ ⟨d.maxOp + 1, a⟩ := by
      rintro rfl
      simp at hc
    simp [hi]

theorem le_append (d : Document α κ ν) (a k v) : d ≤ d.append a k v :=
  fun _ _ h => op?_append.mpr (.inl h)

theorem overwritten_append {a k v i} :
    (d.append a k v).Overwritten i ↔ d.Overwritten i ∨ ∃ w, d.Visible k i w := by
  constructor
  case mp =>
    rintro ⟨j, p, hp, hi⟩
    rcases op?_append.mp hp with hp | ⟨rfl, rfl⟩
    · exact .inl ⟨j, p, hp, hi⟩
    · simp only [List.mem_map, Prod.exists, exists_eq_right, mem_getAll] at hi
      exact .inr hi
  case mpr =>
    rintro (ho | ⟨w, hw⟩)
    · exact ho.mono (le_append d a k v)
    · refine ⟨_, _, op?_append.mpr (.inr ⟨rfl, rfl⟩), ?_⟩
      simp only [List.mem_map, Prod.exists, exists_eq_right, mem_getAll]
      exact ⟨w, hw⟩

-- The appended operation is all that its register shows; the other registers are as before.
theorem visible_append_self {a k v i w} :
    (d.append a k v).Visible k i w ↔ i = ⟨d.maxOp + 1, a⟩ ∧ w = v := by
  constructor
  case mp =>
    rintro ⟨⟨p, hp, hk, rfl⟩, hc⟩
    rcases op?_append.mp hp with hp | ⟨rfl, rfl⟩
    · rw [overwritten_append, not_or] at hc
      exact absurd ⟨p.value, ⟨p, hp, hk, rfl⟩, hc.1⟩ hc.2
    · simp
  case mpr =>
    rintro ⟨rfl, rfl⟩
    refine ⟨⟨_, op?_append.mpr (.inr ⟨rfl, rfl⟩), rfl, rfl⟩, ?_⟩
    rw [overwritten_append]
    rintro (ho | ⟨w, ⟨p, hp, _⟩, _⟩)
    · have ⟨p, hp⟩ := ho.held
      simp [op?_next] at hp
    · simp [op?_next] at hp

theorem visible_append_ne {a k k' v i w} (h : k' ≠ k) :
    (d.append a k v).Visible k' i w ↔ d.Visible k' i w := by
  constructor
  case mp =>
    rintro hv
    have ⟨p, hp, hk, hw⟩ := hv.held
    rcases op?_append.mp hp with hp | ⟨rfl, rfl⟩
    · exact hv.of_le (le_append d a k v) hp
    · exact absurd hk.symm h
  case mpr =>
    intro hv
    have ⟨p, hp, hk, hw⟩ := hv.held
    refine ⟨⟨p, le_append d a k v _ _ hp, hk, hw⟩, ?_⟩
    rw [overwritten_append]
    rintro (ho | ⟨w', hw'⟩)
    · exact hv.current ho
    · exact h (hv.value_unique hw').1

variable [DecidableEq ν]

-- A put of the value that a register already shows as its only one is elided.
def put (d : Document α κ ν) (a : α) (k : κ) (v : ν) : Document α κ ν :=
  if (d.getAll k).map Prod.fst = [v] then d else d.append a k v

theorem le_put (d : Document α κ ν) (a k v) : d ≤ d.put a k v := by
  unfold put
  split
  · exact le_refl d
  · exact le_append d a k v

theorem op?_put {a k v i p} (h : (d.put a k v).op? i = some p) :
    d.op? i = some p ∨ (i = ⟨d.maxOp + 1, a⟩ ∧ p.key = k ∧ p.value = v) := by
  unfold put at h
  split at h
  · exact .inl h
  · rcases op?_append.mp h with h | ⟨rfl, rfl⟩
    · exact .inl h
    · exact .inr ⟨rfl, rfl, rfl⟩

theorem getAll_put_self (d : Document α κ ν) (a k v) : ∃ i, (d.put a k v).getAll k = [(v, i)] := by
  unfold put
  split
  case isTrue h =>
    have ⟨⟨w, i⟩, hl, hw⟩ := List.map_eq_singleton_iff.mp h
    cases hw
    exact ⟨i, hl⟩
  case isFalse =>
    refine ⟨⟨d.maxOp + 1, a⟩, getAll_eq_singleton (visible_append_self.mpr ⟨rfl, rfl⟩) ?_⟩
    intro j w hw
    exact (visible_append_self.mp hw).1

theorem visible_put_ne {a k k' v i w} (h : k' ≠ k) :
    (d.put a k v).Visible k' i w ↔ d.Visible k' i w := by
  unfold put
  split
  · rfl
  · exact visible_append_ne h

theorem getAll_put_ne {a k k' v} (h : k' ≠ k) :
    (d.put a k v).getAll k' = d.getAll k' :=
  getAll_eq fun _ _ => visible_put_ne h

-- An actor whose earlier operations are all in the document it writes to uses a new identity.
theorem Agrees.put {a k v} (h : d.Agrees e)
    (hc : ∀ i p, e.op? i = some p → i.actor = a → ∃ q, d.op? i = some q) :
    (d.put a k v).Agrees e := by
  intro i p q hp hq
  rcases op?_put hp with hp | ⟨rfl, -, -⟩
  · exact h _ _ _ hp hq
  · have ⟨r, hr⟩ := hc _ _ hq rfl
    simp [op?_next] at hr

end Put

end Document
end Causal
