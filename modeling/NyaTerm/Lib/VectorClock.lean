import Mathlib.Data.Set.Basic
import Mathlib.Order.Lattice
import Mathlib.Tactic.Basic

-- Events of devices, each with a clock that counts the events of every device it builds upon.
namespace VectorClock

variable {E D : Type} (device : E → D) (clock : E → D → Nat)

-- A new event builds upon some earlier ones: its clock is their join with one more event of its own
-- device. It builds upon everything that its device has done before.
structure Extends (history : List E) (known : Set E) (new : E) : Prop where
  earlier : ∀ e ∈ known, e ∈ history
  above : ∀ e ∈ known, clock e ≤ clock new
  ticks : ∀ e ∈ known, clock e (device new) < clock new (device new)
  pos : 0 < clock new (device new)
  joined : ∀ d, d ≠ device new → clock new d = 0 ∨ ∃ e ∈ known, clock new d ≤ clock e d
  own : ∀ e ∈ history, device e = device new → ∃ e' ∈ known, clock e ≤ clock e'

-- The newest event comes first.
inductive History : List E → Prop
  | nil : History []
  | cons {history known new} (hh : History history)
    (he : Extends device clock history known new) : History (new :: history)

variable {device clock} {history : List E} {known : Set E} {new p : E}

namespace History

variable (h : History device clock history)
include h

section

variable (hp : p ∈ history)
include hp

theorem pos : 0 < clock p (device p) := by
  induction h
  case nil => cases hp
  case cons history known new _ he hi =>
    rcases List.mem_cons.mp hp with rfl | hp
    · exact he.pos
    · exact hi hp

theorem bounded (d : D) :
    clock p d = 0 ∨ ∃ e ∈ history, device e = d ∧ clock p d ≤ clock e d := by
  induction h generalizing p
  case nil => cases hp
  case cons history known new _ he hi =>
    have hold {p} (hp : p ∈ history) :
        clock p d = 0 ∨ ∃ e ∈ new :: history, device e = d ∧ clock p d ≤ clock e d :=
      (hi hp).imp_right fun hb => hb.imp fun e hb => ⟨.tail _ hb.1, hb.2⟩
    rcases List.mem_cons.mp hp with rfl | hp
    · by_cases hd : d = device p
      · exact .inr ⟨p, .head _, hd.symm, le_rfl⟩
      · rcases he.joined d hd with hz | ⟨e, hk, hle⟩
        · exact .inl hz
        · rcases hold (he.earlier e hk) with hz | ⟨e', hm, hb, hle'⟩
          · exact .inl (Nat.le_zero.mp (hle.trans hz.le))
          · exact .inr ⟨e', hm, hb, hle.trans hle'⟩
    · exact hold hp

omit hp in
theorem fresh (he : Extends device clock history known new)
    (hp : p ∈ history) : clock p (device new) < clock new (device new) := by
  rcases h.bounded hp (device new) with hz | ⟨e, hm, hd, hle⟩
  · rw [hz]
    exact he.pos
  · have ⟨e', hk, hle'⟩ := he.own e hm hd
    exact (hle.trans (hle' _)).trans_lt (he.ticks e' hk)

theorem causal (hq : q ∈ history)
    (hc : clock p (device p) ≤ clock q (device p)) : clock p ≤ clock q := by
  induction h generalizing p q
  case nil => cases hp
  case cons history known new hh he hi =>
    rcases List.mem_cons.mp hp with rfl | hp' <;> rcases List.mem_cons.mp hq with rfl | hq'
    · exact le_rfl
    · exact absurd (hh.fresh he hq') hc.not_gt
    · by_cases hd : device p = device q
      · have ⟨e, hk, hle⟩ := he.own p hp' hd
        exact hle.trans (he.above e hk)
      · rcases he.joined _ hd with hz | ⟨e, hk, hle⟩
        · exact absurd (hh.pos hp') (by omega)
        · exact (hi hp' (he.earlier e hk) (hc.trans hle)).trans (he.above e hk)
    · exact hi hp' hq' hc

theorem eq_of_clock_eq (hq : q ∈ history)
    (hc : clock p = clock q) : p = q := by
  induction h
  case nil => cases hp
  case cons history known new hh he hi =>
    rcases List.mem_cons.mp hp with rfl | hp' <;> rcases List.mem_cons.mp hq with rfl | hq'
    · rfl
    · exact absurd (congrFun hc _) (hh.fresh he hq').ne'
    · exact absurd (congrFun hc _) (hh.fresh he hp').ne
    · exact hi hp' hq'

end

section

variable (he : Extends device clock history known new) (hp : p ∈ history)
include he hp

theorem le_known_of_counted
    (hc : clock p (device p) ≤ clock new (device p)) : ∃ e ∈ known, clock p ≤ clock e := by
  by_cases hd : device p = device new
  · exact he.own p hp hd
  · rcases he.joined _ hd with hz | ⟨e, hk, hle⟩
    · exact absurd (h.pos hp) (by omega)
    · exact ⟨e, hk, h.causal hp (he.earlier e hk) (hc.trans hle)⟩

theorem known_of_counted
    (hm : ∀ e ∈ history, ¬ clock p < clock e)
    (hc : clock p (device p) ≤ clock new (device p)) : p ∈ known := by
  have ⟨e, hk, hle⟩ := h.le_known_of_counted he hp hc
  have hq := he.earlier e hk
  rwa [h.eq_of_clock_eq hp hq (eq_of_le_of_not_lt hle (hm e hq))]

end

omit h in
theorem not_le_of_later (h : History device clock (later ++ history)) (hp : p ∈ later)
    (hq : q ∈ history) : ¬ clock p ≤ clock q := by
  induction later
  case nil => cases hp
  case cons e later hi =>
    obtain ⟨_, _⟩ | ⟨hh, he⟩ := h
    rcases List.mem_cons.mp hp with rfl | hp
    · exact fun hle => (hh.fresh he (List.mem_append_right _ hq)).not_ge (hle _)
    · exact hi hh hp

theorem le_newest [DecidableEq D] (hn : history.find? (device · = d) = some new) (hp : p ∈ history)
    (hd : device p = d) : clock p ≤ clock new := by
  induction h
  case nil => cases hp
  case cons history known e _ he hi =>
    by_cases hed : device e = d
    · rw [List.find?_cons_of_pos (by simpa using hed)] at hn
      obtain rfl := Option.some.inj hn
      rcases List.mem_cons.mp hp with rfl | hp
      · exact le_rfl
      · have ⟨e', hk, hle⟩ := he.own p hp (hd.trans hed.symm)
        exact hle.trans (he.above e' hk)
    · rw [List.find?_cons_of_neg (by simpa using hed)] at hn
      rcases List.mem_cons.mp hp with rfl | hp
      · exact absurd hd hed
      · exact hi hn hp

end History

end VectorClock
