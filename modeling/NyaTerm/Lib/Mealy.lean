import Mathlib.Data.List.Basic

-- Machines that read items one by one and write items, without an end.
namespace Mealy

variable {σ α ω : Type} (step : σ → α → List ω × σ)

def run (s : σ) : List α → List ω × σ
  | [] => ([], s)
  | a :: as =>
    let later := run (step s a).2 as
    ((step s a).1 ++ later.1, later.2)

variable {step}

theorem run_singleton (s : σ) (a : α) : run step s [a] = step s a := by
  rw [run, run, List.append_nil]

theorem run_append (s : σ) (as bs : List α) :
    run step s (as ++ bs) =
      ((run step s as).1 ++ (run step (run step s as).2 bs).1, (run step (run step s as).2 bs).2) := by
  induction as generalizing s
  case nil => rfl
  case cons a as ih => rw [List.cons_append, run, run, ih, List.append_assoc]

theorem run_relation {I : List α → List ω → σ → Prop}
    (hstep : ∀ {read written s} a, I read written s →
      I (read ++ [a]) (written ++ (step s a).1) (step s a).2)
    (as : List α) {read : List α} {written : List ω} (h : I read written s) :
    I (read ++ as) (written ++ (run step s as).1) (run step s as).2 := by
  induction as generalizing s read written
  case nil => rwa [run, List.append_nil, List.append_nil]
  case cons a as ih =>
    have hlater := ih (hstep a h)
    rwa [List.append_assoc, List.append_assoc] at hlater

end Mealy
