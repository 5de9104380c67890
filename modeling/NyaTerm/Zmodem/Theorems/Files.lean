import NyaTerm.Zmodem.Theorems.Receive

open List

namespace NyaTerm.Zmodem

open Trzsz (Path LocalPaths join)

section

variable [LocalPaths] (lossy : List UInt8 → String)

-- The local paths of the files that are started, up to the end of the session.
def started (directory : Path) : List Polled → List Path
  | [] => []
  | .fileStarted name _ :: rest => join directory (sanitizeFilename (lossy name)) :: started directory rest
  | .sessionCompleted :: _ => []
  | _ :: rest => started directory rest

-- The file that is open, with the bytes that were delivered for it so far.
def follow (directory : Path) (current : Option (Path × List UInt8)) : Polled → Option (Path × List UInt8)
  | .fileStarted name _ => some (join directory (sanitizeFilename (lossy name)), [])
  | .writeFile bytes => current.map fun file => (file.1, file.2 ++ bytes)
  | .fileCompleted => none
  | _ => current

-- The files that are completed, each with the bytes that were delivered for it.
def delivered (directory : Path) : Option (Path × List UInt8) → List Polled → List (Path × List UInt8)
  | _, [] => []
  | _, .sessionCompleted :: _ => []
  | current, .fileCompleted :: rest => current.toList ++ delivered directory none rest
  | current, polled :: rest => delivered directory (follow lossy directory current polled) rest

-- A file is completed only after it was started.
def isSequenced : Bool → List Polled → Bool
  | _, [] => true
  | _, .fileStarted _ _ :: rest => isSequenced true rest
  | opened, .fileCompleted :: rest => opened && isSequenced false rest
  | _, .sessionCompleted :: _ => true
  | opened, _ :: rest => isSequenced opened rest

variable {lossy}

variable {directory : Path} {current : Option (Path × List UInt8)} {polled : List Polled}
  {download : Download}
  {inputs : List (Polled × Answers)} {path : Path}

theorem delivered_sublist : (delivered lossy directory current polled).map Prod.fst <+
    current.toList.map Prod.fst ++ started lossy directory polled := by
  fun_induction delivered lossy directory current polled <;> simp_all [started]
  case case4 current polled rest h₁ h₂ ih => cases polled <;> cases current <;> simp_all [started, follow]

namespace Download

-- The transfer goes on, and the open file holds what was delivered for it.
structure Tracks (download : Download) (directory : Path) (opened : Option (Path × List UInt8)) : Prop where
  saveDir : download.transfer.saveDir = directory
  running : download.transfer.outcome = none
  current : download.transfer.currentFile.map (join directory ·.name) = opened.map Prod.fst
  content : ∀ file ∈ opened, download.files file.1 = some file.2

theorem run_of_ended (h : download.transfer.outcome.isSome) : download.run lossy inputs = download := by
  induction inputs
  case nil => rfl
  case cons input inputs ih =>
    have hs : download.step lossy input = download := by simp [step, Transfer.step, h]
    rw [run, foldl_cons, hs]
    exact ih

-- How a step ends the transfer, completes a file, or goes on with the file that is open.
inductive Outcome (lossy : List UInt8 → String) (download : Download) (directory : Path)
    (current : Option (Path × List UInt8)) :
    Polled → Download → Prop
  | failed {polled : Polled} {next : Download} {reason : String} :
    next.transfer.outcome = some (.error reason) → Outcome lossy download directory current polled next
  | ended {next : Download} : next.transfer.outcome = some (.ok download.transfer.fileCount) →
    next.files = download.files → Outcome lossy download directory current .sessionCompleted next
  | completed {next : Download} : next.Tracks directory none →
    next.transfer.fileCount = download.transfer.fileCount + 1 → next.files = download.files →
    Outcome lossy download directory current .fileCompleted next
  | continued {polled : Polled} {next : Download} : polled ≠ .sessionCompleted → polled ≠ .fileCompleted →
    next.Tracks directory (follow lossy directory current polled) →
    next.transfer.fileCount = download.transfer.fileCount →
    (∀ path, path ∉ current.toList.map Prod.fst →
      path ∉ (follow lossy directory current polled).toList.map Prod.fst →
      next.files path = download.files path) →
    Outcome lossy download directory current polled next

theorem step_outcome (h : download.Tracks directory current) (input : Polled × Answers) :
    Outcome lossy download directory current input.1 (download.step lossy input) := by
  obtain ⟨polled, file, acknowledge⟩ := input
  obtain ⟨⟨saveDir, currentFile, fileCount, opened, outcome⟩, files⟩ := download
  obtain ⟨rfl, rfl, hc, hf⟩ := h
  cases polled
  case writeWire | idle => exact .continued nofun nofun ⟨rfl, rfl, hc, hf⟩ rfl fun _ _ _ => rfl
  case aborted => exact .failed rfl
  case sessionCompleted => exact .ended rfl rfl
  case fileStarted name size =>
    cases file
    case error => exact .failed rfl
    case ok =>
      refine .continued nofun nofun ⟨rfl, rfl, rfl, ?_⟩ rfl fun path _ hp => ?_ <;>
        simp_all [follow, step, store]
  case fileCompleted =>
    cases currentFile <;> cases file
    case some.error => exact .failed rfl
    all_goals exact .completed ⟨rfl, rfl, rfl, nofun⟩ rfl rfl
  case writeFile bytes =>
    cases currentFile
    case none => exact .failed rfl
    case some open? =>
      cases file
      case error => exact .failed rfl
      cases acknowledge
      case error => exact .failed rfl
      obtain ⟨⟨path, content⟩, rfl, rfl⟩ := Option.map_eq_some_iff.mp hc.symm
      refine .continued nofun nofun ⟨rfl, rfl, rfl, ?_⟩ rfl fun path hp _ => ?_ <;>
        simp_all [follow, step, store]

theorem run_cons (input : Polled × Answers) :
    download.run lossy (input :: inputs) = (download.step lossy input).run lossy inputs :=
  rfl

-- Completed files hold what was delivered for them, and nothing else is touched than what is open or
-- is started again.
theorem Tracks.run_spec (h : download.Tracks directory current)
    (hs : isSequenced current.isSome (inputs.map Prod.fst))
    (hn : (current.toList.map Prod.fst ++ started lossy directory (inputs.map Prod.fst)).Nodup) {count : UInt32}
    (hr : (download.run lossy inputs).transfer.outcome = some (.ok count)) :
    count.toNat = (download.transfer.fileCount.toNat +
        (delivered lossy directory current (inputs.map Prod.fst)).length) % 2 ^ 32 ∧
      (∀ file ∈ delivered lossy directory current (inputs.map Prod.fst),
        (download.run lossy inputs).files file.1 = some file.2) ∧
      ∀ path ∉ current.toList.map Prod.fst, path ∉ started lossy directory (inputs.map Prod.fst) →
        (download.run lossy inputs).files path = download.files path := by
  induction inputs generalizing download current
  case nil => cases h.running.symm.trans hr
  case cons input inputs ih =>
    obtain ⟨polled, answers⟩ := input
    have ho := @step_outcome _ lossy _ _ _ h (polled, answers)
    rw [run_cons] at hr ⊢
    generalize download.step lossy (polled, answers) = next at ho hr
    cases ho
    case failed hf =>
      rw [run_of_ended (by simp [hf]), hf] at hr
      cases hr
    case ended he hf =>
      rw [run_of_ended (by simp [he])] at hr ⊢
      obtain rfl : download.transfer.fileCount = count := by simpa [he] using hr
      exact ⟨(Nat.mod_eq_of_lt (UInt32.toNat_lt _)).symm, nofun, fun path _ _ => by rw [hf]⟩
    case completed ht hc hf =>
      cases current <;> simp [isSequenced] at hs
      case some file =>
        simp [started] at hn
        have ⟨hcount, hfiles, hkeep⟩ := ih ht hs (by simpa using hn.2) hr
        have hfile : (next.run lossy inputs).files file.1 = some file.2 := by
          rw [hkeep file.1 (by simp) hn.1, hf, h.content file rfl]
        refine ⟨by simp [delivered, hcount, hc, UInt32.toNat_add]; omega, ?_, fun path _ hp => ?_⟩
        · simp only [map_cons, delivered, Option.toList_some, singleton_append, forall_mem_cons]
          exact ⟨hfile, hfiles⟩
        · rw [hkeep path (by simp) (by simpa [started] using hp), hf]
    case continued hn₁ hn₂ hc ht hk =>
      have hd : delivered lossy directory current (polled :: inputs.map Prod.fst) =
          delivered lossy directory (follow lossy directory current polled) (inputs.map Prod.fst) := by
        cases polled <;> simp [delivered] at hn₁ hn₂ ⊢
      have hp : (follow lossy directory current polled).toList.map Prod.fst ++
          started lossy directory (inputs.map Prod.fst) <+
            current.toList.map Prod.fst ++ started lossy directory (polled :: inputs.map Prod.fst) := by
        cases polled <;> cases current <;> simp [started, follow] at hn₁ hn₂ ⊢
      have hs : isSequenced (follow lossy directory current polled).isSome (inputs.map Prod.fst) := by
        cases polled <;> simp_all [isSequenced, follow]
      have ⟨hcount, hfiles, hkeep⟩ := ih ht hs (hn.sublist hp) hr
      rw [map_cons, hd, ← hc]
      refine ⟨hcount, hfiles, fun path h₁ h₂ => ?_⟩
      have hnot : path ∉ _ := fun hm => (mem_append.mp (hp.subset hm)).elim h₁ h₂
      rw [mem_append, not_or] at hnot
      rw [hkeep path hnot.1 hnot.2, hk path h₁ hnot.1]

end Download

theorem mem_started (h : path ∈ started lossy directory polled) :
    ∃ name, path = directory ++ [name] := by
  fun_induction started lossy directory polled <;> simp_all
  case case2 name size rest ih =>
    rw [sanitizeFilename_joins] at h
    exact h.elim (fun h => ⟨_, h⟩) ih

theorem downloads_keep_files {files : Path → Option (List UInt8)} {count : UInt32}
    (hs : isSequenced false (inputs.map Prod.fst))
    (hn : (started lossy directory (inputs.map Prod.fst)).Nodup)
    (hr : (Download.run lossy ⟨.new directory, files⟩ inputs).transfer.outcome = some (.ok count)) :
    count.toNat = (delivered lossy directory none (inputs.map Prod.fst)).length % 2 ^ 32 ∧
      ((delivered lossy directory none (inputs.map Prod.fst)).map Prod.fst).Nodup ∧
      ∀ file ∈ delivered lossy directory none (inputs.map Prod.fst), (∃ name, file.1 = directory ++ [name]) ∧
        (Download.run lossy ⟨.new directory, files⟩ inputs).files file.1 = some file.2 := by
  have ht : (⟨.new directory, files⟩ : Download).Tracks directory none := ⟨rfl, rfl, rfl, nofun⟩
  have ⟨hc, hf, _⟩ := ht.run_spec hs hn hr
  have hp := @delivered_sublist _ lossy directory none (inputs.map Prod.fst)
  refine ⟨by simpa [Transfer.new] using hc, hn.sublist hp, fun file hm => ⟨?_, hf file hm⟩⟩
  exact mem_started (hp.subset (mem_map_of_mem hm))

end

namespace Download.Sample

open Transfer.Sample (ascii accepted)

local instance unix : LocalPaths := Trzsz.Family.paths .unix

-- Two files of one byte each, which are completed.
def pair (first second : UInt8) : List (Polled × Answers) :=
  [.fileStarted [first] none, .writeFile [1], .fileCompleted, .fileStarted [second] none, .writeFile [2],
    .fileCompleted, .sessionCompleted].map (·, accepted)

-- The second file of a name takes the place of the first one, and both are counted.
theorem download_loses_file :
    (run ascii ⟨.new ["downloads"], fun _ => none⟩ (pair 97 97)).transfer.outcome = some (.ok 2) ∧
    ¬ ∀ file ∈ delivered ascii ["downloads"] none ((pair 97 97).map Prod.fst),
      (run ascii ⟨.new ["downloads"], fun _ => none⟩ (pair 97 97)).files file.1 = some file.2 :=
  ⟨rfl, by decide +kernel⟩

theorem downloads_keep_files_pair :
    (run ascii ⟨.new ["downloads"], fun _ => none⟩ (pair 97 98)).files ["downloads", "a"] = some [1] :=
  have hr : (run ascii ⟨.new ["downloads"], fun _ => none⟩ (pair 97 98)).transfer.outcome =
    some (.ok 2) := rfl
  ((downloads_keep_files (by decide) (by decide +kernel) hr).2.2 (["downloads", "a"], [1])
    (by decide +kernel)).2

end Download.Sample

end NyaTerm.Zmodem
