import Mathlib.Data.List.Basic

open List

-- Lines that are ended by a separator, cut from a buffer and processed one after the other.
namespace Lines

variable {α σ ω : Type} [DecidableEq α]

-- The first line of a buffer and what follows it.
def cut (sep : α) : List α → Option (List α × List α)
  | [] => none
  | a :: as => if a = sep then some ([], as) else (cut sep as).map fun p => (a :: p.1, p.2)

omit [DecidableEq α] in
def join (sep : α) (lines : List (List α)) : List α :=
  lines.flatMap (· ++ [sep])

variable {sep : α} {line : List α}

theorem cut_eq_none : cut sep as = none ↔ sep ∉ as := by
  induction as
  case nil => simp [cut]
  case cons a as ih =>
    rw [cut]
    split
    case isTrue h => simp [h]
    case isFalse h => simp [ih, Ne.symm h]

theorem eq_of_cut (h : cut sep as = some (line, rest)) : sep ∉ line ∧ as = line ++ sep :: rest := by
  induction as generalizing line
  case nil => cases h
  case cons a as ih =>
    rw [cut] at h
    split at h
    case isTrue ha =>
      cases h
      exact ⟨not_mem_nil, ha ▸ rfl⟩
    case isFalse ha =>
      have ⟨⟨line', rest'⟩, hcut, heq⟩ := Option.map_eq_some_iff.mp h
      cases heq
      obtain ⟨hmem, rfl⟩ := ih hcut
      exact ⟨by rw [mem_cons, not_or]; exact ⟨Ne.symm ha, hmem⟩, rfl⟩

omit [DecidableEq α] in
theorem join_append (first second : List (List α)) :
    join sep (first ++ second) = join sep first ++ join sep second :=
  flatMap_append

omit [DecidableEq α] in
theorem join_cons : join sep (line :: lines) = line ++ sep :: join sep lines := by
  rw [join, flatMap_cons, append_assoc, singleton_append]
  rfl

theorem exists_join (sep : α) (as : List α) :
    ∃ lines rest, as = join sep lines ++ rest ∧ (∀ line ∈ lines, sep ∉ line) ∧ sep ∉ rest := by
  induction as
  case nil => exact ⟨[], [], rfl, fun _ h => absurd h not_mem_nil, not_mem_nil⟩
  case cons a as ih =>
    obtain ⟨lines, rest, rfl, hlines, hrest⟩ := ih
    by_cases ha : a = sep
    case pos =>
      refine ⟨[] :: lines, rest, by rw [join_cons, ha]; rfl, ?_, hrest⟩
      rw [forall_mem_cons]
      exact ⟨not_mem_nil, hlines⟩
    case neg =>
      cases lines
      case nil =>
        refine ⟨[], a :: rest, rfl, hlines, ?_⟩
        rw [mem_cons, not_or]
        exact ⟨Ne.symm ha, hrest⟩
      case cons line lines =>
        rw [forall_mem_cons] at hlines
        refine ⟨(a :: line) :: lines, rest, by rw [join_cons, join_cons]; rfl, ?_, hrest⟩
        rw [forall_mem_cons, mem_cons, not_or]
        exact ⟨⟨Ne.symm ha, hlines.1⟩, hlines.2⟩

-- Where the processing of lines has come to: it waits for the end of a line, or it has ended and
-- leaves the rest.
inductive Verdict (α σ ω : Type)
  | waiting (state : σ) (line : List α)
  | ended (outcome : ω) (rest : List α)
  deriving DecidableEq

-- The lines one after the other, up to the first that ends the processing.
def process (sep : α) (step : σ → List α → Except ω σ) (s : σ) (line : List α) :
    List α → Verdict α σ ω
  | [] => .waiting s line
  | a :: as =>
    if a = sep then
      match step s line with
      | .ok s => process sep step s [] as
      | .error outcome => .ended outcome as
    else process sep step s (line ++ [a]) as

-- Items that arrive later.
def Verdict.feed (sep : α) (step : σ → List α → Except ω σ) (verdict : Verdict α σ ω) (as : List α) :
    Verdict α σ ω :=
  match verdict with
  | .waiting s line => process sep step s line as
  | .ended outcome rest => .ended outcome (rest ++ as)

variable {step : σ → List α → Except ω σ}

theorem process_append :
    process sep step s line (as ++ bs) = (process sep step s line as).feed sep step bs := by
  induction as generalizing s line
  case nil => rfl
  case cons a as ih =>
    rw [cons_append, process, process]
    split
    case isTrue =>
      cases step s line
      case ok => exact ih
      case error => rfl
    case isFalse => exact ih

theorem process_rest (h : sep ∉ rest) : process sep step s line rest = .waiting s (line ++ rest) := by
  induction rest generalizing line
  case nil => rw [process, append_nil]
  case cons a rest ih =>
    rw [mem_cons, not_or] at h
    rw [process, if_neg (Ne.symm h.1), ih h.2, append_assoc, singleton_append]

section

variable (h : sep ∉ line)
include h

theorem process_again :
    process sep step s [] (line ++ as) = process sep step s line as := by
  rw [process_append, process_rest h]
  rfl

theorem not_mem_waiting (hw : process sep step s line as = .waiting s' rest) :
    sep ∉ rest := by
  induction as generalizing s line
  case nil => cases hw; exact h
  case cons a as ih =>
    rw [process] at hw
    split at hw
    case isTrue =>
      cases hstep : step s line
      case ok => rw [hstep] at hw; exact ih not_mem_nil hw
      case error => rw [hstep] at hw; cases hw
    case isFalse ha =>
      refine ih ?_ hw
      rw [mem_append, mem_singleton, not_or]
      exact ⟨h, Ne.symm ha⟩

theorem process_sep :
    process sep step s start (line ++ sep :: rest) =
      process sep step s (start ++ line) (sep :: rest) := by
  rw [process_append, process_rest h]
  rfl

theorem process_ok (hs : step s (start ++ line) = .ok s') :
    process sep step s start (line ++ sep :: rest) = process sep step s' [] rest := by
  rw [process_sep h, process, if_pos rfl, hs]

theorem process_error (hs : step s (start ++ line) = .error outcome) :
    process sep step s start (line ++ sep :: rest) = .ended outcome rest := by
  rw [process_sep h, process, if_pos rfl, hs]

end

theorem process_join (h : ∀ line ∈ lines, sep ∉ line) (hs : lines.foldlM step s = .ok s') :
    process sep step s [] (join sep lines ++ rest) = process sep step s' [] rest := by
  induction lines generalizing s
  case nil => cases hs; rfl
  case cons line lines ih =>
    rw [forall_mem_cons] at h
    rw [foldlM_cons] at hs
    cases hstep : step s line
    case error => rw [hstep] at hs; cases hs
    case ok next =>
      rw [hstep] at hs
      rw [join_cons, append_assoc, cons_append, process_ok h.1 hstep]
      exact ih h.2 hs

theorem process_join_error (h : ∀ line ∈ lines, sep ∉ line)
    (hs : lines.foldlM step s = .error outcome) (as : List α) :
    ∃ rest, process sep step s [] (join sep lines ++ as) = .ended outcome rest := by
  induction lines generalizing s
  case nil => cases hs
  case cons line lines ih =>
    rw [forall_mem_cons] at h
    rw [foldlM_cons] at hs
    rw [join_cons, append_assoc, cons_append]
    cases hstep : step s line
    case error =>
      rw [hstep] at hs
      cases hs
      exact ⟨_, process_error h.1 hstep⟩
    case ok next =>
      rw [hstep] at hs
      rw [process_ok h.1 hstep]
      exact ih h.2 hs

theorem process_eq_ended : process sep step s [] as = .ended outcome rest ↔
    ∃ lines last state, as = join sep lines ++ last ++ sep :: rest ∧ (∀ line ∈ lines, sep ∉ line) ∧
      sep ∉ last ∧ lines.foldlM step s = .ok state ∧ step state last = .error outcome := by
  constructor
  · intro h
    obtain ⟨lines, tail, rfl, hlines, htail⟩ := exists_join sep as
    induction lines generalizing s
    case nil => rw [join, flatMap_nil, nil_append, process_rest htail] at h; cases h
    case cons line lines ih =>
      rw [forall_mem_cons] at hlines
      rw [join_cons, append_assoc, cons_append] at h ⊢
      cases hstep : step s line
      case error =>
        rw [process_error hlines.1 hstep] at h
        cases h
        exact ⟨[], line, s, rfl, fun _ h => absurd h not_mem_nil, hlines.1, rfl, hstep⟩
      case ok next =>
        rw [process_ok hlines.1 hstep] at h
        have ⟨lines', last, state, heq, hfree, hlast, hfold, hend⟩ := ih h hlines.2
        refine ⟨line :: lines', last, state, ?_, ?_, hlast, ?_, hend⟩
        · rw [heq, join_cons]
          simp
        · rw [forall_mem_cons]
          exact ⟨hlines.1, hfree⟩
        · rw [foldlM_cons, hstep]
          exact hfold
  · rintro ⟨lines, last, state, rfl, hfree, hlast, hfold, hend⟩
    rw [append_assoc, process_join hfree hfold, process_error hlast hend]

end Lines
