import Mathlib.Data.List.Sort

-- Inversion rules for loops over a list in `Except`.
namespace Fallible

variable {f : α → Except ε β}

theorem bind_eq_ok : (x >>= f) = .ok b ↔ ∃ a, x = .ok a ∧ f a = .ok b := by
  cases x <;> simp [bind, Except.bind]

theorem pure_eq_ok : (pure a : Except ε α) = .ok b ↔ a = b := by
  simp [pure, Except.pure]

variable {xs : List α}

theorem mapM_eq_ok :
    xs.mapM f = .ok ys ↔ List.Forall₂ (fun x y => f x = .ok y) xs ys := by
  induction xs generalizing ys
  case nil => cases ys <;> simp [pure, Except.pure]
  case cons x xs hi =>
    simp only [List.mapM_cons, bind_eq_ok, pure_eq_ok, hi]
    constructor
    case mp =>
      rintro ⟨y, hy, zs, hz, rfl⟩
      exact .cons hy hz
    case mpr =>
      rintro (_ | ⟨hy, hz⟩)
      exact ⟨_, hy, _, hz, rfl⟩

theorem foldlM_invariant {f : β → α → Except ε β} {P : β → Prop}
    (hstep : ∀ b x b', P b → f b x = .ok b' → P b') (h : P b) (hf : xs.foldlM f b = .ok b') :
    P b' := by
  induction xs generalizing b
  case nil =>
    obtain rfl := pure_eq_ok.mp hf
    exact h
  case cons x xs hi =>
    rw [List.foldlM_cons, bind_eq_ok] at hf
    have ⟨next, hn, hf⟩ := hf
    exact hi (hstep b x next h hn) hf

theorem exists_mapM_eq_ok :
    (∃ ys, xs.mapM f = .ok ys) ↔ ∀ x ∈ xs, ∃ y, f x = .ok y := by
  induction xs
  case nil => simp [pure, Except.pure]
  case cons x xs hi =>
    simp only [List.mapM_cons, bind_eq_ok, pure_eq_ok, List.forall_mem_cons, ← hi]
    constructor
    case mp => exact fun ⟨_, y, hy, zs, hz, _⟩ => ⟨⟨y, hy⟩, ⟨zs, hz⟩⟩
    case mpr => exact fun ⟨⟨y, hy⟩, ⟨zs, hz⟩⟩ => ⟨_, y, hy, zs, hz, rfl⟩

theorem mem_of_mapM (h : xs.mapM f = .ok ys) {y} :
    y ∈ ys ↔ ∃ x ∈ xs, f x = .ok y := by
  rw [mapM_eq_ok] at h
  induction h
  case nil => simp
  case cons x z xs zs hx _ hi => simp [hx, hi, eq_comm]

theorem pairwise_of_mapM (h : xs.mapM f = .ok ys) (hx : xs.Pairwise P)
    (hq : ∀ x x' y y', P x x' → f x = .ok y → f x' = .ok y' → Q y y') : ys.Pairwise Q := by
  rw [mapM_eq_ok] at h
  induction h
  case nil => exact .nil
  case cons x y xs ys hy h hi =>
    rw [List.pairwise_cons] at hx
    refine .cons (fun y' hy' => ?_) (hi hx.2)
    have ⟨x', hx', he⟩ := (mem_of_mapM (mapM_eq_ok.mpr h)).mp hy'
    exact hq _ _ _ _ (hx.1 x' hx') hy he

theorem exists_of_mapM_eq_error (h : xs.mapM f = .error e) : ∃ x ∈ xs, f x = .error e := by
  induction xs
  case nil => simp [pure, Except.pure] at h
  case cons x xs hi =>
    cases hx : f x
    case error => simp_all [bind, Except.bind]
    case ok =>
      cases hs : xs.mapM f <;> simp_all [bind, Except.bind, pure, Except.pure]

theorem mapM_congr (h : ∀ x ∈ xs, f x = g x) : xs.mapM f = xs.mapM g := by
  induction xs
  case nil => rfl
  case cons x xs hi => simp_all [List.mapM_cons]

theorem forM_eq_ok {f : α → Except ε Unit} :
    xs.forM f = .ok () ↔ ∀ x ∈ xs, f x = .ok () := by
  induction xs
  case nil => simp [pure, Except.pure]
  case cons x xs hi =>
    rw [List.forM_eq_forM] at hi ⊢
    simp only [List.forM_cons, bind_eq_ok, hi, List.forall_mem_cons]
    exact ⟨fun ⟨_, hx, hs⟩ => ⟨hx, hs⟩, fun ⟨hx, hs⟩ => ⟨_, hx, hs⟩⟩

end Fallible
