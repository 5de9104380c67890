import Mathlib.Data.List.Basic

-- Runs of a transition system whose steps carry labels.
namespace Labelled

variable {σ α : Type} (step : σ → α → σ → Prop)

inductive Run : σ → List α → σ → Prop
  | nil {s} : Run s [] s
  | cons {s s' s'' a as} : step s a s' → Run s' as s'' → Run s (a :: as) s''

variable {step}

namespace Run

variable {P : σ → Prop}

theorem invariant (hstep : ∀ {s a s'}, step s a s' → P s → P s')
    (h : Run step s as s') (hs : P s) : P s' := by
  induction h
  case nil => exact hs
  case cons ht _ ih => exact ih (hstep ht hs)

variable {G : α → Prop}

theorem invariant_of
    (hstep : ∀ {s a s'}, G a → step s a s' → P s → P s')
    (h : Run step s as s') (hg : ∀ a ∈ as, G a) (hs : P s) : P s' := by
  induction h
  case nil => exact hs
  case cons ht _ ih =>
    exact ih (fun b hb => hg b (.tail _ hb)) (hstep (hg _ (.head _)) ht hs)

theorem relation {I : List α → σ → Prop}
    (hstep : ∀ {seen s a s'}, G a → step s a s' → I seen s → I (seen ++ [a]) s')
    (h : Run step s as s') (hg : ∀ a ∈ as, G a) (hs : I seen s) : I (seen ++ as) s' := by
  induction h generalizing seen
  case nil => rwa [List.append_nil]
  case cons ht _ ih =>
    have := ih (fun b hb => hg b (.tail _ hb)) (hstep (hg _ (.head _)) ht hs)
    rwa [List.append_assoc] at this

theorem label {Q : α → Prop} (hstep : ∀ {s a s'}, G a → step s a s' → P s → P s' ∧ Q a)
    (h : Run step s as s') (hg : ∀ a ∈ as, G a) (hs : P s) : ∀ a ∈ as, Q a := by
  induction h
  case nil => exact nofun
  case cons ht _ ih =>
    intro a ha
    rcases List.mem_cons.mp ha with rfl | ha
    · exact (hstep (hg _ (.head _)) ht hs).2
    · exact ih (fun b hb => hg b (.tail _ hb)) (hstep (hg _ (.head _)) ht hs).1 a ha

end Run

end Labelled
