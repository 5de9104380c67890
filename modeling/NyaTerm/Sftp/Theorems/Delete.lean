import NyaTerm.Lib.Fallible
import NyaTerm.Sftp.Delete

open List

namespace NyaTerm.Sftp

section Paths

def isName (name : List UInt8) : Bool :=
  name ≠ [] ∧ name ≠ [dot] ∧ name ≠ [dot, dot] ∧ slash ∉ name ∧ 0 ∉ name

-- The target, or a path that leads from it over names.
def Inside (target path : RemotePath) : Prop :=
  ∃ names : List (List UInt8), (∀ name ∈ names, isName name) ∧
    path = target ++ names.flatMap (slash :: ·)

def Below (path directory : RemotePath) : Prop :=
  ∃ rest, path = directory ++ slash :: rest

theorem Inside.refl (target : RemotePath) : Inside target target :=
  ⟨[], by simp, by simp⟩

theorem Inside.child (h : Inside target path) (hn : isName name) :
    Inside target (Collection.child path name) := by
  obtain ⟨names, hm, rfl⟩ := h
  refine ⟨names ++ [name], ?_, ?_⟩
  · intro other ho
    rcases mem_append.mp ho with ho | ho
    · exact hm other ho
    · rwa [mem_singleton.mp ho]
  · simp [Collection.child]

theorem Below.depth_lt (h : Below path directory) : depth directory < depth path := by
  obtain ⟨rest, rfl⟩ := h
  simp [depth, count_append]

theorem parts_concat (path : RemotePath) : parts (path ++ [slash]) = parts path ++ [[]] := by
  rw [parts, parts, List.splitOn, List.splitOn]
  induction path
  case nil => rfl
  case cons b path ih =>
    rw [cons_append, splitOnP_cons_eq_if_modifyHead, splitOnP_cons_eq_if_modifyHead, ih]
    split
    case isTrue => rfl
    obtain ⟨x, xs, hx⟩ := exists_cons_of_ne_nil (splitOnP_ne_nil (· == slash) path)
    rw [hx]
    rfl

theorem parts_normalizePath (path : RemotePath) :
    ∃ n, parts path = parts (normalizePath path) ++ replicate n [] := by
  induction path using List.reverseRecOn
  case nil => exact ⟨0, rfl⟩
  case append_singleton path b ih =>
    by_cases hb : b = slash
    case pos =>
      obtain ⟨n, hn⟩ := ih
      subst hb
      refine ⟨n + 1, ?_⟩
      rw [parts_concat, hn, normalizePath, normalizePath, rdropWhile_concat_pos _ _ _ (by simp),
        append_assoc, ← List.replicate_succ']
    case neg =>
      refine ⟨0, ?_⟩
      rw [normalizePath, rdropWhile_concat_neg _ _ _ (by simpa using hb)]
      simp

-- The targets that no deletion may have.
def IsForbidden (raw : RemotePath) : Prop :=
  raw = [] ∨ (∀ part ∈ parts raw, part = [] ∨ part = [dot]) ∨ [dot, dot] ∈ parts raw

theorem ensureSafeTarget_forbidden (h : IsForbidden raw) :
    ensureSafeTarget raw = .error "Refusing to delete unsafe remote path" := by
  rw [ensureSafeTarget, if_pos]
  obtain ⟨n, hn⟩ := parts_normalizePath raw
  simp only [isUnsafe, decide_eq_true_eq]
  rcases h with rfl | h | h
  · exact .inr (.inl (by decide))
  · refine .inr (.inl ?_)
    rintro ⟨part, hm, hne, hd⟩
    rcases h part (hn ▸ mem_append_left _ hm) with he | he
    · exact hne he
    · exact hd he
  · refine .inr (.inr ?_)
    rw [hn] at h
    refine (mem_append.mp h).resolve_right fun hr => ?_
    exact absurd (eq_of_mem_replicate hr) (by decide)

end Paths

section Collecting

def Collection.Inside (target : RemotePath) (collection : Collection) : Prop :=
  (∀ path ∈ collection.inventory.files, Sftp.Inside target path) ∧
  (∀ path ∈ collection.inventory.dirs, Sftp.Inside target path) ∧
  ∀ path ∈ collection.pending, Sftp.Inside target path

theorem Collection.addEntry_inside {entry : Entry}
    (hp : Sftp.Inside target path) (h : collection.Inside target)
    (ha : addEntry path collection entry = .ok collection') : collection'.Inside target := by
  rw [addEntry] at ha
  split at ha
  case isTrue =>
    obtain rfl := Except.ok.inj ha
    exact h
  case isFalse hdots =>
    split at ha
    case isTrue => cases ha
    case isFalse hname =>
      have hc : Sftp.Inside target (child path entry.name) := by
        refine hp.child ?_
        simp only [not_or] at hdots hname
        simp [isName, hdots, hname]
      split at ha
      case isTrue =>
        obtain rfl := Except.ok.inj ha
        refine ⟨h.1, h.2.1, fun p hm => ?_⟩
        rcases mem_cons.mp hm with rfl | hm
        · exact hc
        · exact h.2.2 p hm
      case isFalse =>
        obtain rfl := Except.ok.inj ha
        refine ⟨fun p hm => ?_, h.2.1, h.2.2⟩
        rcases mem_append.mp hm with hm | hm
        · exact h.1 p hm
        · rwa [mem_singleton.mp hm]

theorem Collection.addEntries_inside {entries : List Entry}
    (hp : Sftp.Inside target path) (h : collection.Inside target)
    (ha : entries.foldlM (addEntry path) collection = .ok collection') :
    collection'.Inside target :=
  Fallible.foldlM_invariant (fun _ _ _ h ha => addEntry_inside hp h ha) h ha

theorem Collection.list_inside {pending : List RemotePath}
    (h : Collection.Inside target ⟨i, path :: pending⟩)
    (hl : Collection.list path ⟨i, pending⟩ answer = .ok collection) :
    collection.Inside target := by
  have hp : Sftp.Inside target path := h.2.2 path mem_cons_self
  have hrest : ∀ p ∈ pending, Sftp.Inside target p := fun p hm => h.2.2 p (mem_cons_of_mem _ hm)
  cases answer
  case error e =>
    rw [Collection.list] at hl
    split at hl
    case isTrue =>
      obtain rfl := Except.ok.inj hl
      exact ⟨h.1, h.2.1, hrest⟩
    case isFalse => cases hl
  case ok entries =>
    have hdirs : ∀ p ∈ i.dirs ++ [path], Sftp.Inside target p := by
      intro p hm
      rcases mem_append.mp hm with hm | hm
      · exact h.2.1 p hm
      · rwa [mem_singleton.mp hm]
    have h₀ : Collection.Inside target
        ⟨{ i with dirs := i.dirs ++ [path] }, pending⟩ := ⟨h.1, hdirs, hrest⟩
    exact addEntries_inside hp h₀ hl

end Collecting

section Removing

def Worker.path? : Worker → Option RemotePath
  | .holding path => some path
  | _ => none

def Request.file? : Request → Option RemotePath
  | .removeFile path => some path
  | _ => none

def Request.dir? : Request → Option RemotePath
  | .removeDir path => some path
  | _ => none

-- The removal of a directory comes after that of all files and of all directories below it.
def Ordered (inventory : Inventory) (requests : List Request) : Prop :=
  ∀ before directory after, requests = before ++ .removeDir directory :: after →
    (∀ path ∈ inventory.files, .removeFile path ∈ before) ∧
    ∀ path ∈ inventory.dirs, Below path directory → .removeDir path ∈ before

theorem Ordered.concat (h : Ordered i requests)
    (hr : ∀ directory, request = .removeDir directory →
      (∀ path ∈ i.files, .removeFile path ∈ requests) ∧
      ∀ path ∈ i.dirs, Below path directory → .removeDir path ∈ requests) :
    Ordered i (requests ++ [request]) := by
  intro before directory after he
  rcases eq_nil_or_concat after with rfl | ⟨after, last, rfl⟩
  case inl =>
    obtain ⟨rfl, hl⟩ := List.append_inj' he rfl
    exact hr directory (cons.inj hl).1
  case inr =>
    rw [concat_eq_append, ← cons_append, ← append_assoc] at he
    exact h before directory after (List.append_inj' he rfl).1

-- What holds while files and directories are removed. Each file is in the queue, with a worker or
-- asked for, and the directories are asked for in their order.
structure Removal.Inv (target : RemotePath) (removal : Removal) (requests : List Request) : Prop where
  files_inside : ∀ path ∈ removal.inventory.files, Inside target path
  dirs_inside : ∀ path ∈ removal.inventory.dirs, Inside target path
  files : List.Perm (removal.queue ++ removal.workers.filterMap Worker.path? ++
    requests.filterMap Request.file?) removal.inventory.files
  dirs : requests.filterMap Request.dir? ++ removal.dirs = sortDirs removal.inventory.dirs
  drained : .finished ∈ removal.workers → removal.queue = []
  staffed : removal.inventory.files ≠ [] → removal.workers ≠ []
  ordered : Ordered removal.inventory requests

theorem mem_sortDirs :
    path ∈ sortDirs dirs ↔ path ∈ dirs :=
  (perm_insertionSort _ dirs).mem_iff

theorem sortDirs_pairwise (dirs : List RemotePath) :
    (sortDirs dirs).Pairwise fun a b => depth b ≤ depth a :=
  pairwise_insertionSort _ dirs

namespace Removal.Inv

variable {removal : Removal}

theorem new {workers : Nat} (hf : ∀ path ∈ i.files, Inside target path)
    (hd : ∀ path ∈ i.dirs, Inside target path) (hw : i.files ≠ [] → 0 < workers)
    (hr : ∀ request ∈ requests, request.file? = none ∧ request.dir? = none) :
    (Removal.new i workers).Inv target requests where
  files_inside := hf
  dirs_inside := hd
  files := by
    have hn : requests.filterMap Request.file? = [] :=
      filterMap_eq_nil_iff.mpr fun r hm => (hr r hm).1
    have hi : (replicate workers Worker.idle).filterMap Worker.path? = [] :=
      filterMap_eq_nil_iff.mpr fun w hm => by rw [eq_of_mem_replicate hm]; rfl
    simp [Removal.new, hn, hi]
  dirs := by
    have hn : requests.filterMap Request.dir? = [] :=
      filterMap_eq_nil_iff.mpr fun r hm => (hr r hm).2
    rw [hn]
    rfl
  drained h := absurd (eq_of_mem_replicate h) (by decide)
  staffed h he := by
    have hz : workers = 0 := by simpa [Removal.new] using he
    exact absurd (hw h) (by omega)
  ordered before directory after he := by
    have hm := hr (.removeDir directory) (by simp [he])
    exact absurd hm.2 (by simp [Request.dir?])

theorem files_requested (h : removal.Inv target requests)
    (hw : ∀ worker ∈ removal.workers, worker = .finished) :
    List.Perm (requests.filterMap Request.file?) removal.inventory.files := by
  have hn : removal.workers.filterMap Worker.path? = [] :=
    filterMap_eq_nil_iff.mpr fun w hm => by rw [hw w hm]; rfl
  have hq : removal.queue = [] := by
    by_cases hf : removal.inventory.files = []
    case pos =>
      have hp := h.files
      rw [hf] at hp
      exact (append_eq_nil_iff.mp (append_eq_nil_iff.mp hp.eq_nil).1).1
    case neg =>
      obtain ⟨worker, workers, hc⟩ := exists_cons_of_ne_nil (h.staffed hf)
      have hm : worker ∈ removal.workers := by simp [hc]
      exact h.drained (hw worker hm ▸ hm)
  have hp := h.files
  rwa [hn, hq] at hp

variable {queue dirs : List RemotePath}

variable {after : List Worker}

variable {errors : List String}

theorem take
    (h : Removal.Inv target ⟨i, path :: queue, before ++ .idle :: after, dirs, errors⟩ requests) :
    Removal.Inv target ⟨i, queue, before ++ .holding path :: after, dirs, errors⟩ requests where
  files_inside := h.files_inside
  dirs_inside := h.dirs_inside
  files := by
    refine List.Perm.trans ?_ h.files
    refine List.Perm.append_right _ ?_
    simp only [filterMap_append, filterMap_cons, Worker.path?]
    rw [← append_assoc, cons_append, ← append_assoc]
    exact perm_middle
  dirs := h.dirs
  drained hm := by
    have hq := h.drained (by simpa using hm)
    cases hq
  staffed _ := by simp
  ordered := h.ordered

theorem removeFile
    (h : Removal.Inv target ⟨i, queue, before ++ .holding path :: after, dirs, errors⟩ requests) :
    Removal.Inv target ⟨i, queue, before ++ .idle :: after, dirs, errors'⟩
      (requests ++ [.removeFile path]) where
  files_inside := h.files_inside
  dirs_inside := h.dirs_inside
  files := by
    refine List.Perm.trans ?_ h.files
    simp only [filterMap_append, filterMap_cons, Worker.path?, Request.file?,
      filterMap_nil]
    rw [perm_iff_count]
    intro other
    simp only [count_append, count_cons, count_nil]
    omega
  dirs := by
    have hd := h.dirs
    simpa [filterMap_cons, Request.dir?] using hd
  drained hm := h.drained (by simpa using hm)
  staffed _ := by simp
  ordered := h.ordered.concat nofun

theorem finish
    (h : Removal.Inv target ⟨i, [], before ++ .idle :: after, dirs, errors⟩ requests) :
    Removal.Inv target ⟨i, [], before ++ .finished :: after, dirs, errors⟩ requests where
  files_inside := h.files_inside
  dirs_inside := h.dirs_inside
  files := by simpa [filterMap_cons, Worker.path?] using h.files
  dirs := h.dirs
  drained _ := rfl
  staffed _ := by simp
  ordered := h.ordered

-- Directories below the next one have more separators, so that they came before it.
theorem removeDir {workers : List Worker}
    (h : Removal.Inv target ⟨i, queue, workers, path :: dirs, errors⟩ requests)
    (hw : ∀ worker ∈ workers, worker = .finished) :
    Removal.Inv target ⟨i, queue, workers, dirs, errors'⟩ (requests ++ [.removeDir path]) where
  files_inside := h.files_inside
  dirs_inside := h.dirs_inside
  files := by simpa [filterMap_cons, Request.file?] using h.files
  dirs := by
    have hd := h.dirs
    simpa [filterMap_cons, Request.dir?] using hd
  drained := h.drained
  staffed := h.staffed
  ordered := by
    refine h.ordered.concat fun directory he => ?_
    cases he
    refine ⟨fun file hf => ?_, fun other ho hb => ?_⟩
    · have hm := (h.files_requested hw).mem_iff.mpr hf
      obtain ⟨request, hr, hs⟩ := mem_filterMap.mp hm
      cases request <;> simp_all [Request.file?]
    · have hs := sortDirs_pairwise i.dirs
      have hd : requests.filterMap Request.dir? ++ path :: dirs = sortDirs i.dirs := h.dirs
      rw [← hd, pairwise_append] at hs
      have hm : other ∈ requests.filterMap Request.dir? ++ path :: dirs := by
        rw [hd]
        exact mem_sortDirs.mpr ho
      rcases mem_append.mp hm with hm | hm
      case inl =>
        obtain ⟨request, hr, hq⟩ := mem_filterMap.mp hm
        cases request <;> simp_all [Request.dir?]
      case inr =>
        have hlt := hb.depth_lt
        rcases mem_cons.mp hm with rfl | hm
        · omega
        · have hle := rel_of_pairwise_cons hs.2.1 hm
          omega

end Removal.Inv

end Removing

namespace Deletion

-- The requests that remove a path.
def Request.Removes (request : Request) (path : RemotePath) : Prop :=
  request.file? = some path ∨ request.dir? = some path

def Inv (target : RemotePath) (requests : List Request) : Deletion → Prop
  | .inspecting path => path = target ∧ requests = []
  | .collecting collection =>
    collection.Inside target ∧ ∀ request ∈ requests, request.file? = none ∧ request.dir? = none
  | .removing removal => removal.Inv target requests
  | .ended _ => ∀ request ∈ requests, ∀ path, Request.Removes request path → Inside target path

variable {deletion : Deletion}

theorem Inv.inside
    (h : deletion.Inv target requests) :
    ∀ request ∈ requests, ∀ path, Request.Removes request path → Inside target path := by
  intro request hm path hr
  cases deletion
  case inspecting => simp [h.2] at hm
  case collecting =>
    have hn := h.2 request hm
    simp [Request.Removes, hn.1, hn.2] at hr
  case ended => exact h request hm path hr
  case removing removal =>
    have h : removal.Inv target requests := h
    rcases hr with hf | hd
    · refine h.files_inside path (h.files.mem_iff.mp ?_)
      exact mem_append_right _ (mem_filterMap.mpr ⟨request, hm, hf⟩)
    · refine h.dirs_inside path (mem_sortDirs.mp (h.dirs ▸ ?_))
      exact mem_append_left _ (mem_filterMap.mpr ⟨request, hm, hd⟩)

section Runs

variable {isUtf8 : Bool} {display : String}

theorem Step.inv (h : deletion.Inv target requests)
    (hs : Step isUtf8 display deletion asked deletion') :
    deletion'.Inv target (requests ++ asked) := by
  cases hs
  case unavailable =>
    rw [append_nil]
    exact h.inside
  case file answer =>
    obtain ⟨rfl, rfl⟩ := h
    rintro request hm path hr
    obtain rfl := mem_singleton.mp hm
    rcases hr with hr | hr
    · cases hr
      exact .refl _
    · cases hr
  case executed command hc =>
    obtain ⟨rfl, rfl⟩ := h
    rintro request hm path hr
    obtain rfl := mem_singleton.mp hm
    rcases hr with hr | hr <;> cases hr
  case fallback command hc =>
    obtain ⟨rfl, rfl⟩ := h
    refine ⟨⟨by simp [Collection.new], by simp [Collection.new], by simp [Collection.new, Inside.refl]⟩, ?_⟩
    rintro request hm
    obtain rfl := mem_singleton.mp hm
    exact ⟨rfl, rfl⟩
  case collect hc =>
    obtain ⟨rfl, rfl⟩ := h
    exact ⟨⟨by simp [Collection.new], by simp [Collection.new], by simp [Collection.new, Inside.refl]⟩,
      by simp⟩
  case list answer hl =>
    refine ⟨Collection.list_inside h.1 hl, ?_⟩
    simpa using h.2
  case listFailed | nothing | poolFailed =>
    rw [append_nil]
    exact h.inside
  case remove workers hd hw =>
    rw [append_nil]
    exact .new h.1.1 h.1.2.1 hw h.2
  case take =>
    rw [append_nil]
    exact Removal.Inv.take h
  case removeFile => exact Removal.Inv.removeFile h
  case finish =>
    rw [append_nil]
    exact Removal.Inv.finish h
  case removeDir hw answer => exact Removal.Inv.removeDir h hw
  case done =>
    rw [append_nil]
    exact h.inside

theorem Reachable.inv
    (h : Reachable isUtf8 display raw deletion requests) :
    deletion.Inv (normalizePath raw) requests := by
  induction h
  case start =>
    rw [Deletion.start]
    split
    case h_1 => exact nofun
    split
    case h_1 => exact nofun
    case h_2 => exact ⟨rfl, rfl⟩
  case step _ hs hi => exact Step.inv hi hs

theorem start_forbidden (h : IsForbidden raw) : ∃ e, start display raw = .ended (.error e) := by
  rw [Deletion.start]
  split
  case h_1 e _ => exact ⟨e, rfl⟩
  rw [ensureSafeTarget_forbidden h]
  exact ⟨_, rfl⟩

theorem Reachable.forbidden
    (h : Reachable isUtf8 display raw deletion requests) (hf : IsForbidden raw) :
    (∃ e, deletion = .ended (.error e)) ∧ requests = [] := by
  induction h
  case start => exact ⟨start_forbidden hf, rfl⟩
  case step _ hs hi =>
    obtain ⟨⟨e, rfl⟩, _⟩ := hi
    cases hs

theorem deletion_stays_inside {deletion : Deletion} {requests : List Request}
    (h : Reachable isUtf8 display raw deletion requests) :
    (∀ path, .removeFile path ∈ requests ∨ .removeDir path ∈ requests →
      Inside (normalizePath raw) path) ∧
    (∀ removal, deletion = .removing removal →
      Ordered removal.inventory requests ∧
      List.Subperm (requests.filterMap Request.file?) removal.inventory.files ∧
      ((∀ worker ∈ removal.workers, worker = .finished) →
        List.Perm (requests.filterMap Request.file?) removal.inventory.files)) ∧
    (∀ removal asked result, deletion = .removing removal →
      Step isUtf8 display deletion asked (.ended result) →
      List.Perm (requests.filterMap Request.file?) removal.inventory.files ∧
      List.Perm (requests.filterMap Request.dir?) removal.inventory.dirs) ∧
    (IsForbidden raw → (∃ e, deletion = .ended (.error e)) ∧ requests = []) := by
  refine ⟨?_, ?_, ?_, h.forbidden⟩
  · rintro path (hm | hm)
    · exact h.inv.inside _ hm path (.inl rfl)
    · exact h.inv.inside _ hm path (.inr rfl)
  · rintro removal rfl
    have hi : removal.Inv (normalizePath raw) requests := h.inv
    refine ⟨hi.ordered, ?_, hi.files_requested⟩
    exact (sublist_append_right _ _).subperm.trans hi.files.subperm
  · rintro removal asked result rfl hs
    have hi : removal.Inv (normalizePath raw) requests := h.inv
    cases hs
    case done inventory queue workers errors hw =>
      -- Nothing is left of the sorted directories.
      have hd : requests.filterMap Request.dir? ++ [] = sortDirs inventory.dirs := hi.dirs
      rw [append_nil] at hd
      exact ⟨hi.files_requested hw, hd ▸ perm_insertionSort _ _⟩

end Runs

namespace Sample

-- The directory /a with the file f.
theorem deletion_stays_inside_file :
    ∃ deletion, Reachable false "/a" [47, 97, 47] deletion
      [.removeFile [47, 97, 47, 102], .removeDir [47, 97]] ∧ Inside [47, 97] [47, 97, 47, 102] := by
  have hd : ensureSafeTarget (asBytes (String.ofList (Text.trim "/a".toList))) = .ok () :=
    if_neg (by decide +kernel)
  have hr : ensureSafeTarget [47, 97, 47] = .ok () := if_neg (by decide +kernel)
  have hs : start "/a" [47, 97, 47] = .inspecting [47, 97] := by
    rw [start, hd, hr]
    rfl
  have h₀ : Reachable false "/a" [47, 97, 47] (.inspecting [47, 97]) [] := hs ▸ .start
  have h₁ : Reachable false "/a" [47, 97, 47] (.collecting ⟨⟨[], []⟩, [[47, 97]]⟩) [] :=
    .step h₀ (.collect (by decide))
  have h₂ : Reachable false "/a" [47, 97, 47]
      (.collecting ⟨⟨[[47, 97, 47, 102]], [[47, 97]]⟩, []⟩) [] :=
    .step h₁ (.list (.ok [⟨[dot], true⟩, ⟨[102], false⟩]) rfl)
  have h₃ : Reachable false "/a" [47, 97, 47] (.removing ⟨⟨[[47, 97, 47, 102]], [[47, 97]]⟩,
      [[47, 97, 47, 102]], [] ++ .idle :: [], [[47, 97]], []⟩) [] :=
    .step h₂ (.remove 1 (by decide) (by decide))
  have h₄ : Reachable false "/a" [47, 97, 47] (.removing ⟨⟨[[47, 97, 47, 102]], [[47, 97]]⟩,
      [], [] ++ .idle :: [], [[47, 97]], []⟩) [.removeFile [47, 97, 47, 102]] :=
    .step (.step h₃ .take) (.removeFile (.ok ()))
  have h₅ : Reachable false "/a" [47, 97, 47] (.removing ⟨⟨[[47, 97, 47, 102]], [[47, 97]]⟩,
      [], [.finished], [], []⟩) [.removeFile [47, 97, 47, 102], .removeDir [47, 97]] :=
    .step (.step h₄ .finish) (.removeDir (by decide) (.ok ()))
  exact ⟨_, h₅, (deletion_stays_inside h₅).1 _ (.inl mem_cons_self)⟩

end Sample

end Deletion

end NyaTerm.Sftp
