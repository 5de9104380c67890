import NyaTerm.Trzsz.Platforms
import NyaTerm.Trzsz.Theorems.Sink
import NyaTerm.Zmodem.Receive

open List

namespace NyaTerm.Zmodem

open Trzsz (Path LocalPaths join Normal)

section Names

theorem sanitizeChar_mem (hd : d ∈ invalid ∨ Text.isControl d) : sanitizeChar c ≠ d := by
  rw [sanitizeChar]
  split
  case isTrue =>
    rintro rfl
    exact absurd hd (by decide)
  case isFalse h =>
    rintro rfl
    exact h hd

theorem sanitizeChar_eq_dot : sanitizeChar c = '.' ↔ c = '.' := by
  rw [sanitizeChar]
  split
  case isTrue h =>
    refine iff_of_false (by decide) ?_
    rintro rfl
    exact absurd h (by decide)
  case isFalse => rfl

theorem map_sanitizeChar_eq :
    cs.map sanitizeChar = replicate n '.' ↔ cs = replicate n '.' := by
  simp only [eq_replicate_iff, length_map, mem_map, forall_exists_index, and_imp,
    forall_apply_eq_imp_iff₂, sanitizeChar_eq_dot]

theorem lastPart_plain (h : c ∈ lastPart name) : c ≠ '/' ∧ c ≠ '\\' := by
  have hm := all_eq_true.mp all_takeWhile c (mem_reverse.mp h)
  simpa using hm

theorem plain_of_all {cs : List Char}
    (hall : cs.all (fun c => c ≠ '/' ∧ c ≠ '\\' ∧ c ≠ ':' ∧ ¬ Text.isControl c) = true) (h : c ∈ cs) :
    c ≠ '/' ∧ c ≠ '\\' ∧ c ≠ ':' ∧ ¬ Text.isControl c :=
  of_decide_eq_true (all_eq_true.mp hall c h)

theorem sanitizeFilename_plain (h : c ∈ (sanitizeFilename name).toList) :
    c ≠ '/' ∧ c ≠ '\\' ∧ c ≠ ':' ∧ ¬ Text.isControl c := by
  rw [sanitizeFilename] at h
  split at h
  case isTrue => exact plain_of_all (by decide) h
  rw [String.toList_ofList] at h
  obtain ⟨d, hd, rfl⟩ := mem_map.mp h
  obtain ⟨hs, hb⟩ := lastPart_plain hd
  have hn : ∀ e, e ≠ '_' → d ≠ e → sanitizeChar d ≠ e := by
    intro e he hne
    rw [sanitizeChar]
    split
    · exact Ne.symm he
    · exact hne
  refine ⟨hn _ (by decide) hs, hn _ (by decide) hb, sanitizeChar_mem (.inl (by decide)), fun hc => ?_⟩
  exact sanitizeChar_mem (.inr hc) rfl

-- The names that lead nowhere but to a directory.
def isDots (name : String) : Bool :=
  lastPart name = ['.'] ∨ lastPart name = ['.', '.']

theorem sanitizeFilename_dots (name : String) :
    (sanitizeFilename name = "." ∨ sanitizeFilename name = "..") ↔ isDots name := by
  have hr : ∀ n, (lastPart name).map sanitizeChar = replicate n '.' ↔
      lastPart name = replicate n '.' := fun _ => map_sanitizeChar_eq
  have hs : ∀ n, 0 < n → (sanitizeFilename name = String.ofList (replicate n '.') ↔
      lastPart name = replicate n '.') := by
    intro n hn
    rw [← hr n, sanitizeFilename]
    split
    case isTrue he =>
      rw [he]
      refine iff_of_false (fun hz => ?_) (by simp; omega)
      have hl : "zmodem_file".toList = replicate n '.' := by
        rw [hz, String.toList_ofList]
      have hm : 'z' ∈ "zmodem_file".toList := by decide
      rw [hl] at hm
      exact absurd (eq_of_mem_replicate hm) (by decide)
    case isFalse =>
      rw [← String.toList_inj, String.toList_ofList, String.toList_ofList]
  simp only [isDots, decide_eq_true_eq]
  exact or_congr (hs 1 (by decide)) (hs 2 (by decide))

variable [LocalPaths]

theorem sanitizeFilename_joins (directory : Path) (name : String) :
    join directory (sanitizeFilename name) = directory ++ [sanitizeFilename name] := by
  have ha : LocalPaths.anchor (sanitizeFilename name) = none := by
    refine Trzsz.unanchored_of_plain (fun c hc => ?_) fun hc => (sanitizeFilename_plain hc).2.2.1 rfl
    exact Trzsz.plain_of_ne (sanitizeFilename_plain hc).1 (sanitizeFilename_plain hc).2.1
  rw [join, ha, Option.getD_none]

-- One component that is a name of its own.
def IsComponent (name : String) : Prop :=
  name ≠ "" ∧ name ≠ "." ∧ name ≠ ".." ∧ Char.ofNat 0 ∉ name.toList ∧
    ∀ c ∈ name.toList, ¬ LocalPaths.separator c

theorem sanitizeFilename_isComponent (name : String) :
    IsComponent (sanitizeFilename name) ↔ ¬ isDots name := by
  rw [← sanitizeFilename_dots, not_or]
  constructor
  case mp => exact fun h => ⟨h.2.1, h.2.2.1⟩
  case mpr =>
    intro h
    refine ⟨?_, h.1, h.2, fun hc => (sanitizeFilename_plain hc).2.2.2 (by decide), fun c hc => ?_⟩
    · rw [sanitizeFilename]
      split
      case isTrue => decide
      case isFalse hne => exact fun he => hne (by simpa using he)
    · exact Trzsz.plain_of_ne (sanitizeFilename_plain hc).1 (sanitizeFilename_plain hc).2.1

end Names

namespace Transfer

section Runs

variable [LocalPaths]

-- The name in a header that arrives while the transfer goes on.
def header (lossy : List UInt8 → String) (transfer : Transfer) (input : Polled × Answers) : List String :=
  if transfer.outcome.isSome then []
  else
    match input.1 with
    | .fileStarted name _ => [lossy name]
    | _ => []

def headers (lossy : List UInt8 → String) (transfer : Transfer) : List (Polled × Answers) → List String
  | [] => []
  | input :: inputs => header lossy transfer input ++ headers lossy (transfer.step lossy input) inputs

theorem step_opened (transfer : Transfer) (input : Polled × Answers) :
    (transfer.step lossy input).saveDir = transfer.saveDir ∧
    (transfer.step lossy input).opened = transfer.opened ++
      (header lossy transfer input).map fun name => join transfer.saveDir (sanitizeFilename name) := by
  obtain ⟨polled, answers⟩ := input
  rw [step, header]
  split
  case isTrue h => simp
  case isFalse h =>
    cases polled
    case writeFile bytes =>
      rw [handle, writeFile.eq_def]
      cases transfer.currentFile
      case none => simp [fail]
      case some file => cases answers.file <;> cases answers.acknowledge <;> simp [fail]
    case fileStarted name size =>
      rw [handle, startFile.eq_def]
      cases answers.file <;> simp [fail]
    case fileCompleted =>
      rw [handle, completeFile.eq_def]
      cases transfer.currentFile <;> cases answers.file <;> simp [fail]
    all_goals simp [handle, fail]

theorem run_opened (transfer : Transfer) (inputs : List (Polled × Answers)) :
    (transfer.run lossy inputs).opened = transfer.opened ++
      (headers lossy transfer inputs).map fun name => join transfer.saveDir (sanitizeFilename name) := by
  induction inputs generalizing transfer
  case nil => simp [run, headers]
  case cons input inputs ih =>
    have hs : (transfer.step lossy input).saveDir = transfer.saveDir ∧ _ := step_opened transfer input
    have hi := ih (transfer.step lossy input)
    rw [hs.1, hs.2, append_assoc, ← map_append] at hi
    exact hi

theorem download_opens_components_iff (directory : Path) (inputs : List (Polled × Answers)) :
    (∀ path ∈ ((new directory).run lossy inputs).opened,
      ∃ name, IsComponent name ∧ path = directory ++ [name]) ↔
    ∀ name ∈ headers lossy (new directory) inputs, ¬ isDots name := by
  have ho : ((new directory).run lossy inputs).opened = _ := run_opened (new directory) inputs
  have hn : (new directory).opened = [] := rfl
  have hd : (new directory).saveDir = directory := rfl
  rw [hn, hd, nil_append] at ho
  rw [ho]
  simp only [mem_map, forall_exists_index, and_imp, forall_apply_eq_imp_iff₂,
    sanitizeFilename_joins]
  refine forall₂_congr fun name _ => ?_
  rw [← sanitizeFilename_isComponent]
  constructor
  case mp =>
    rintro ⟨other, hc, he⟩
    rwa [(cons.inj (append_cancel_left he)).1]
  case mpr => exact fun hc => ⟨_, hc, rfl⟩

end Runs

namespace Sample

local instance unixPaths : LocalPaths := Trzsz.Family.paths .unix

def ascii (bytes : List UInt8) : String :=
  String.ofList (bytes.map fun b => Char.ofNat b.toNat)

def accepted : Answers := ⟨.ok (), .ok ()⟩

-- A header with the name `..` has the parent of the directory opened.
theorem download_opens_parent :
    ((new ["downloads"]).run ascii [(.fileStarted [46, 46] none, accepted)]).opened =
      [["downloads", ".."]] ∧ ¬ IsComponent ".." := by
  refine ⟨by decide +kernel, fun h => h.2.2.1 rfl⟩

-- The name `../x` is reduced to its last part.
theorem download_opens_components_iff_climbing :
    ∃ name, IsComponent name ∧ ["downloads", "x"] = ["downloads"] ++ [name] := by
  have ho : ((new ["downloads"]).run ascii [(.fileStarted [46, 46, 47, 120] none, accepted)]).opened =
      [["downloads", "x"]] := by decide +kernel
  have hn : ∀ name ∈ headers ascii (new ["downloads"])
      [(.fileStarted [46, 46, 47, 120] none, accepted)], ¬ isDots name := by decide +kernel
  exact (download_opens_components_iff _ _).mpr hn _ (ho ▸ mem_cons_self)

end Sample

end Transfer

end NyaTerm.Zmodem
