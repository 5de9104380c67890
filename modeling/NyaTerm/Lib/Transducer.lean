import Mathlib.Data.List.Basic

-- Machines that read items one by one, write items and may stop.
namespace Transducer

structure Outcome (σ ω : Type) where
  output : List ω
  state : σ
  stopped : Bool

variable {α ω : Type} (step : σ → α → Outcome σ ω)

-- Nothing is read any more once the machine has stopped.
def run (s : σ) : List α → Outcome σ ω
  | [] => ⟨[], s, false⟩
  | a :: as =>
    let now := step s a
    if now.stopped then now
    else
      let later := run now.state as
      ⟨now.output ++ later.output, later.state, later.stopped⟩

-- The same, over chunks.
def feed (s : σ) : List (List α) → Outcome σ ω
  | [] => ⟨[], s, false⟩
  | chunk :: chunks =>
    let now := run step s chunk
    if now.stopped then now
    else
      let later := feed now.state chunks
      ⟨now.output ++ later.output, later.state, later.stopped⟩

variable {step}

theorem run_append_stopped (h : (run step s as).stopped = true) :
    run step s (as ++ bs) = run step s as := by
  induction as generalizing s
  case nil => cases h
  case cons a as ih =>
    rw [List.cons_append, run, run]
    rw [run] at h
    split at h
    case isTrue hs => rw [if_pos hs, if_pos hs]
    case isFalse hs => rw [if_neg hs, if_neg hs, ih h]

theorem run_append {as bs : List α} (h : (run step s as).stopped = false) :
    run step s (as ++ bs) =
      ⟨(run step s as).output ++ (run step (run step s as).state bs).output,
        (run step (run step s as).state bs).state, (run step (run step s as).state bs).stopped⟩ := by
  induction as generalizing s
  case nil => rfl
  case cons a as ih =>
    rw [List.cons_append, run, run]
    rw [run] at h
    split at h
    case isTrue hs => rw [hs] at h; cases h
    case isFalse hs =>
      rw [if_neg hs, if_neg hs, ih h]
      rw [List.append_assoc]

theorem feed_eq_run (chunks : List (List α)) : feed step s chunks = run step s chunks.flatten := by
  induction chunks generalizing s
  case nil => rfl
  case cons chunk chunks ih =>
    rw [feed, List.flatten_cons]
    split
    case isTrue h => rw [run_append_stopped h]
    case isFalse h => rw [run_append (Bool.eq_false_iff.mpr h), ih]

theorem run_invariant {P : σ → Prop} (hstep : ∀ s a, P s → P (step s a).state) (as : List α)
    (h : P s) : P (run step s as).state := by
  induction as generalizing s
  case nil => exact h
  case cons a as ih =>
    rw [run]
    split
    case isTrue => exact hstep s a h
    case isFalse => exact ih (hstep s a h)

-- A relation between what has been read, what has been written and the state, kept as long as the
-- items are good.
theorem run_relation {I : List α → List ω → σ → Prop} {good : α → Prop}
    (hstep : ∀ {read written s a}, I read written s → good a →
      (step s a).stopped = false ∧ I (read ++ [a]) (written ++ (step s a).output) (step s a).state)
    {as : List α} (hgood : ∀ a ∈ as, good a) {read : List α} {written : List ω}
    (h : I read written s) :
    (run step s as).stopped = false ∧
      I (read ++ as) (written ++ (run step s as).output) (run step s as).state := by
  induction as generalizing s read written
  case nil =>
    rw [run, List.append_nil, List.append_nil]
    exact ⟨rfl, h⟩
  case cons a as ih =>
    have ⟨hs, hi⟩ := hstep h (hgood a List.mem_cons_self)
    have ⟨hl, hr⟩ := ih (fun b hb => hgood b (List.mem_cons_of_mem a hb)) hi
    rw [run]
    rw [if_neg (by rw [hs]; decide)]
    refine ⟨hl, ?_⟩
    rw [List.append_assoc, List.append_assoc] at hr
    exact hr

end Transducer
