import NyaTerm.Trzsz.Worker

open List

namespace NyaTerm.Trzsz

open LocalPaths

variable [LocalPaths]

-- A name that adds one component to a path.
structure Normal (name : String) : Prop where
  ne_empty : name ≠ ""
  ne_dot : name ≠ "."
  ne_dots : name ≠ ".."
  anchor : LocalPaths.anchor name = none
  plain : ∀ c ∈ name.toList, ¬ LocalPaths.separator c

-- The path leads into the directory, to something other than the directory.
def Inside (directory path : Path) : Prop :=
  ∃ names, names ≠ [] ∧ path = directory ++ names ∧ ∀ name ∈ names, Normal name

section Names

theorem join_normal (h : Normal name) : join path name = path ++ [name] := by
  rw [join, h.anchor, Option.getD_none]

theorem inside_join (h : Normal name) : Inside directory (join directory name) :=
  ⟨[name], by simp, join_normal h, by simpa using h⟩

theorem Inside.join (hp : Inside directory path) (h : Normal name) :
    Inside directory (join path name) := by
  obtain ⟨names, hn, rfl, ha⟩ := hp
  refine ⟨names ++ [name], by simp, by rw [join_normal h, append_assoc], ?_⟩
  intro n hm
  rcases mem_append.mp hm with hm | hm
  · exact ha n hm
  · exact mem_singleton.mp hm ▸ h

theorem unanchored_of_plain (hp : ∀ c ∈ name.toList, ¬ separator c)
    (hc : ':' ∉ name.toList) : anchor name = none := by
  by_contra h
  rcases anchor_colon h with h | ⟨c, hm, hs⟩
  · exact hc h
  · exact hp c hm hs

theorem plain_of_ne (h : c ≠ '/') (hb : c ≠ '\\') : ¬ separator c :=
  fun hs => (separator_eq hs).elim h hb

theorem plain_of_mem {chars : List Char} (hc : c ∈ chars) (h : '/' ∉ chars) (hb : '\\' ∉ chars) :
    ¬ separator c :=
  plain_of_ne (fun he => h (he ▸ hc)) fun he => hb (he ▸ hc)

theorem plain_sanitize (h : c ∈ sanitize name) : ¬ separator c := by
  obtain ⟨d, _, rfl⟩ := mem_map.mp h
  rw [sanitizeChar]
  split
  case isTrue => exact plain_of_ne (by decide) (by decide)
  case isFalse hd =>
    simp only [not_or] at hd
    exact plain_of_ne hd.1 hd.2.1

omit [LocalPaths] in
theorem sanitizeChar_of_ne (hd : d ≠ '_') (h : sanitizeChar c = d) : c = d := by
  rw [sanitizeChar] at h
  split at h
  case isTrue => exact absurd h.symm hd
  case isFalse => exact h

omit [LocalPaths] in
theorem colon_sanitize (h : ':' ∈ sanitize name) : ':' ∈ name.toList := by
  obtain ⟨c, hc, he⟩ := mem_map.mp h
  exact sanitizeChar_of_ne (by decide) he ▸ hc

omit [LocalPaths] in
theorem sanitize_eq_replicate (h : sanitize name = replicate n '.') :
    name.toList = replicate n '.' := by
  rw [sanitize, eq_replicate_iff, length_map] at h
  rw [eq_replicate_iff]
  exact ⟨h.1, fun c hc => sanitizeChar_of_ne (by decide) (h.2 _ (mem_map_of_mem hc))⟩

theorem normal_defaultName : Normal defaultName := by
  have hp : ∀ c ∈ defaultName.toList, ¬ separator c := by
    intro c hc
    exact plain_of_mem hc (by decide) (by decide)
  exact ⟨by decide, by decide, by decide, unanchored_of_plain hp (by decide), hp⟩

-- A sanitized name with a character that is not blank, unless it was made of dots before.
theorem normal_sanitize (ht : Text.trim (sanitize name) ≠ []) (hd : sanitize name ≠ ['.'])
    (hdd : sanitize name ≠ ['.', '.'])
    (ha : anchor (String.ofList (sanitize name)) = none) :
    Normal (String.ofList (sanitize name)) := by
  refine ⟨fun h => ht ?_, fun h => hd ?_, fun h => hdd ?_, ha, fun c hc => ?_⟩
  · have he : sanitize name = [] := by simpa using congrArg String.toList h
    rw [he]
    rfl
  · simpa using congrArg String.toList h
  · simpa using congrArg String.toList h
  · exact plain_sanitize (by simpa using hc)

theorem normal_safeFileName (h : anchor (safeFileName name) = none) :
    Normal (safeFileName name) := by
  rw [safeFileName] at h ⊢
  split at h
  case isTrue ht =>
    rw [if_pos ht]
    exact normal_defaultName
  case isFalse ht =>
    rw [if_neg ht]
    have hb : (fileName name).getD defaultName ≠ "." ∧
        (fileName name).getD defaultName ≠ ".." := by
      cases hn : fileName name
      case none => exact ⟨normal_defaultName.ne_dot, normal_defaultName.ne_dots⟩
      case some base =>
        have hf := fileName_normal hn
        exact ⟨hf.2.1, hf.2.2.1⟩
    refine normal_sanitize ht (fun he => hb.1 ?_) (fun he => hb.2 ?_) h
    · exact String.toList_injective (sanitize_eq_replicate (n := 1) he)
    · exact String.toList_injective (sanitize_eq_replicate (n := 2) he)

theorem normal_safePathComponent (h : ':' ∉ name.toList) : Normal (safePathComponent name) := by
  rw [safePathComponent]
  split
  case isTrue => exact normal_defaultName
  case isFalse ht =>
    simp only [not_or] at ht
    refine normal_sanitize ht.1 (fun he => ht.2.1 ?_) (fun he => ht.2.2 ?_) ?_
    · rw [he]
      rfl
    · rw [he]
      rfl
    · refine unanchored_of_plain (fun c hc => plain_sanitize (by simpa using hc)) fun hc => h ?_
      exact colon_sanitize (by simpa using hc)

theorem plain_toString {n : Nat} (h : c ∈ (toString n).toList) : ¬ separator c := by
  have hm : c ∈ Nat.toDigits 10 n := by simpa [toString, Nat.repr] using h
  have hd : c.isDigit := Nat.isDigit_of_mem_toDigits (by decide) (by decide) hm
  exact plain_of_ne (fun h => absurd (h ▸ hd) (by decide)) (fun h => absurd (h ▸ hd) (by decide))

section

variable (h : Normal name)
include h

theorem unanchored_stemOf : anchor (stemOf name) = none := by
  rw [stemOf]
  cases hs : (fileStem name).filter (· ≠ "")
  case none => exact normal_defaultName.anchor
  case some stem => exact anchor_stem h.plain h.anchor (Option.filter_eq_some_iff.mp hs).1

theorem plain_stemOf (hc : c ∈ (stemOf name).toList) : ¬ separator c := by
  rw [stemOf] at hc
  cases hs : (fileStem name).filter (· ≠ "")
  case none =>
    rw [hs] at hc
    exact normal_defaultName.plain c hc
  case some stem =>
    rw [hs] at hc
    exact h.plain c (fileStem_subset (Option.filter_eq_some_iff.mp hs).1 hc)

theorem normal_append {suffix : String}
    (hs : ∀ c ∈ suffix.toList, ¬ separator c) :
    Normal (stemOf name ++ " (" ++ suffix) := by
  have hne : ∀ other : String, ' ' ∉ other.toList → stemOf name ++ " (" ++ suffix ≠ other := by
    rintro _ hb rfl
    simp at hb
  refine ⟨hne _ (by decide), hne _ (by decide), hne _ (by decide),
    anchor_append suffix (unanchored_stemOf h), fun c hc => ?_⟩
  simp only [String.toList_append, mem_append] at hc
  rcases hc with (hc | hc) | hc
  · exact plain_stemOf h hc
  · exact plain_of_mem hc (by decide) (by decide)
  · exact hs c hc

theorem normal_numbered (n : Nat) : Normal (stemOf name ++ " (" ++ (toString n ++ ")")) := by
  refine normal_append h fun c hc => ?_
  simp only [String.toList_append, mem_append] at hc
  rcases hc with hc | hc
  · exact plain_toString hc
  · exact plain_of_mem hc (by decide) (by decide)

theorem normal_candidateName (index : Nat) : Normal (candidateName name index) := by
  rw [candidateName]
  split
  case h_1 extension he =>
    refine normal_append h fun c hc => ?_
    simp only [String.toList_append, mem_append] at hc
    rcases hc with (hc | hc) | hc
    · exact plain_toString hc
    · exact plain_of_mem hc (by decide) (by decide)
    · exact h.plain c (fileExtension_subset he hc)
  case h_2 => exact normal_numbered h index

end

variable [Host]

theorem normal_lastResort (h : Normal name) (world : Host.World) : Normal (lastResort world name) :=
  normal_numbered h _

theorem uniqueDownloadPath_eq (h : Normal name) (world : Host.World) (directory : Path) :
    ∃ unique, Normal unique ∧ uniqueDownloadPath world directory name = directory ++ [unique] := by
  rw [uniqueDownloadPath]
  split
  case isTrue => exact ⟨name, h, join_normal h⟩
  dsimp only
  cases hf : List.find? _ _
  case none =>
    exact ⟨_, normal_lastResort h world, join_normal (normal_lastResort h world)⟩
  case some path =>
    obtain ⟨index, _, rfl⟩ := mem_map.mp (mem_of_find?_eq_some hf)
    exact ⟨_, normal_candidateName h index, join_normal (normal_candidateName h index)⟩

end Names

-- An operation stays in the directory. A file that is opened did not exist before; the directory
-- itself may be created, as the one above a file.
def FileOp.Confined [Host] (directory : Path) : FileOp → Prop
  | .createDir path => Inside directory path
  | .createParent path => path = directory ∨ Inside directory path
  | .createNew world path => Inside directory path ∧ ¬ Host.pathExists world path
  | .writeAll path _ => Inside directory path

variable [Host]

structure Sink.Confined (sink : Sink) : Prop where
  roots : ∀ pathId name, sink.directoryRoots pathId = some name → Normal name
  pending : ∀ pathId components, sink.pendingPath = some (pathId, components) →
    ∀ part ∈ components, SourceFile.isPart part
  current : ∀ file ∈ sink.currentFile, Inside sink.directory file.path
  ops : ∀ op ∈ sink.ops, op.Confined sink.directory

namespace Sink

variable {sink : Sink}
omit [LocalPaths] [Host] in
theorem colon_of_isPart (h : SourceFile.isPart part) : ':' ∉ part.toList := by
  intro hc
  simp only [SourceFile.isPart, all_eq_true, decide_eq_true_eq] at h
  exact h.2.2.2 ':' hc (by decide)

section

variable (hs : sink.Confined)
include hs

theorem normal_rootName (hr : SourceFile.isPart root) : Normal (sink.rootName pathId root) := by
  rw [rootName]
  split
  case h_1 name h => exact hs.roots pathId name h
  obtain ⟨unique, hn, he⟩ := uniqueDownloadPath_eq
    (normal_safePathComponent (colon_of_isPart hr)) sink.world sink.directory
  rw [he]
  simpa using hn

omit [Host] in
omit hs in
theorem inside_foldl {directory : Path} {parts : List String} (h : Inside directory path)
    (hp : ∀ part ∈ parts, SourceFile.isPart part) :
    Inside directory ((parts.map safePathComponent).foldl join path) := by
  induction parts generalizing path
  case nil => exact h
  case cons part parts ih =>
    have hn := normal_safePathComponent (colon_of_isPart (hp part mem_cons_self))
    exact ih (h.join hn) fun p hm => hp p (mem_cons_of_mem _ hm)

-- The sink is as confined as before, and the path leads into its directory.
structure Entered (sink : Sink) (path : Path) (sink' : Sink) : Prop where
  confined : sink'.Confined
  directory : sink'.directory = sink.directory
  inside : Inside sink.directory path

theorem nestedDownloadPath_entered
    (hc : ∀ part ∈ components, SourceFile.isPart part)
    (h : sink.nestedDownloadPath pathId components = .ok (path, sink')) : Entered sink path sink' := by
  rw [nestedDownloadPath.eq_def] at h
  split at h
  case h_1 => cases h
  case h_2 root rest =>
    cases h
    have hr : Normal (sink.rootName pathId root) := normal_rootName hs (hc root mem_cons_self)
    refine ⟨{ hs with roots := fun id name hn => ?_ }, rfl,
      inside_foldl (inside_join hr) fun part hm => hc part (mem_cons_of_mem _ hm)⟩
    change Function.update sink.directoryRoots pathId _ id = _ at hn
    by_cases he : id = pathId
    case pos =>
      rw [he, Function.update_self] at hn
      exact Option.some.inj hn ▸ hr
    case neg =>
      rw [Function.update_of_ne he] at hn
      exact hs.roots id name hn

theorem filePath_entered (hn : Normal name)
    (h : sink.filePath name = .ok (path, sink')) : Entered sink path sink' := by
  rw [filePath] at h
  split at h
  case h_1 id parts hp =>
    have hs' : Confined { sink with pendingPath := none } :=
      { hs with pending := nofun }
    have he := nestedDownloadPath_entered hs' (hs.pending id parts hp) h
    exact { he with }
  case h_2 =>
    cases h
    obtain ⟨unique, hu, he⟩ := uniqueDownloadPath_eq hn sink.world sink.directory
    exact ⟨hs, rfl, [unique], by simp, he, by simpa using hu⟩

theorem Confined.add {world : Host.World} (h : op.Confined sink.directory) :
    Confined { sink with world, ops := sink.ops ++ [op] } := by
  refine { hs with ops := fun o ho => ?_ }
  rcases mem_append.mp ho with ho | ho
  · exact hs.ops o ho
  · exact mem_singleton.mp ho ▸ h

theorem createDir_confined (hp : Inside sink.directory path)
    (h : sink.createDir path = .ok sink') : sink'.Confined ∧ sink'.directory = sink.directory := by
  rw [createDir] at h
  split at h <;> cases h
  exact ⟨hs.add hp, rfl⟩

omit [Host] in
omit hs in
theorem inside_dropLast {directory : Path} (h : Inside directory path) :
    path.dropLast = directory ∨ Inside directory path.dropLast := by
  obtain ⟨names, hn, rfl, ha⟩ := h
  rw [dropLast_append_of_ne_nil hn]
  by_cases he : names.dropLast = []
  case pos => exact .inl (by rw [he, append_nil])
  case neg => exact .inr ⟨_, he, rfl, fun n hm => ha n (dropLast_subset _ hm)⟩

theorem createParent_confined (hp : Inside sink.directory path)
    (h : sink.createParent path = .ok sink') : sink'.Confined ∧ sink'.directory = sink.directory := by
  rw [createParent] at h
  split at h
  case isTrue =>
    cases h
    exact ⟨hs, rfl⟩
  case isFalse =>
    split at h <;> cases h
    exact ⟨hs.add (inside_dropLast hp), rfl⟩

theorem createFile_confined (hp : Inside sink.directory path)
    (h : sink.createFile path = .ok sink') : sink'.Confined ∧ sink'.directory = sink.directory := by
  rw [createFile] at h
  split at h <;> cases h
  case h_2 he => exact ⟨hs.add ⟨hp, Host.createNew_fresh he⟩, rfl⟩

end

end Sink

-- The names of an event do not lead out of the directory.
def DownloadEvent.Safe : DownloadEvent → Prop
  | .filePath _ _ components => ∀ part ∈ components, SourceFile.isPart part
  | .directory _ _ components => ∀ part ∈ components, SourceFile.isPart part
  | .fileSize name _ => LocalPaths.anchor (safeFileName name) = none
  | _ => True

namespace Sink

variable {sink : Sink}

section

variable (hs : sink.Confined)
include hs

theorem applyDirectory_confined (hc : ∀ part ∈ components, SourceFile.isPart part)
    (h : sink.applyDirectory name pathId components = .ok (sink', update)) :
    sink'.Confined ∧ sink'.directory = sink.directory := by
  simp only [applyDirectory, bind, Except.bind] at h
  split at h
  case h_1 => cases h
  case h_2 entered hn =>
    have he := nestedDownloadPath_entered hs hc hn
    split at h
    case h_1 => cases h
    case h_2 created hd =>
      cases h
      obtain ⟨hs', hd'⟩ := createDir_confined he.confined (he.directory ▸ he.inside) hd
      exact ⟨hs', hd'.trans he.directory⟩

theorem applyFileSize_confined (ha : anchor (safeFileName name) = none)
    (h : sink.applyFileSize name size = .ok (sink', update)) :
    sink'.Confined ∧ sink'.directory = sink.directory := by
  simp only [applyFileSize, bind, Except.bind] at h
  split at h
  case h_1 => cases h
  case h_2 entered hf =>
    have he := filePath_entered hs (normal_safeFileName ha) hf
    split at h
    case h_1 => cases h
    case h_2 parent hp =>
      obtain ⟨hs₁, hd₁⟩ := createParent_confined he.confined (he.directory ▸ he.inside) hp
      split at h
      case h_1 => cases h
      case h_2 created hc =>
        obtain ⟨hs₂, hd₂⟩ := createFile_confined hs₁ (hd₁ ▸ he.directory ▸ he.inside) hc
        cases h
        have hd : created.directory = sink.directory := hd₂.trans (hd₁.trans he.directory)
        refine ⟨{ hs₂ with current := ?_ }, hd⟩
        rintro file ⟨⟩
        exact hd ▸ he.inside

theorem applyData_confined (h : sink.applyData bytes received size = .ok (sink', update)) :
    sink'.Confined ∧ sink'.directory = sink.directory := by
  rw [applyData] at h
  split at h
  case h_1 => cases h
  case h_2 current hc =>
    split at h <;> cases h
    exact ⟨hs.add (hs.current current hc), rfl⟩

theorem applyFinished_confined {digest : List UInt8}
    (h : sink.applyFinished digest = .ok (sink', update)) :
    sink'.Confined ∧ sink'.directory = sink.directory := by
  rw [applyFinished] at h
  split at h
  case h_1 =>
    cases h
    exact ⟨hs, rfl⟩
  case h_2 =>
    split at h <;> cases h
    exact ⟨{ hs with current := nofun }, rfl⟩

theorem apply_confined (he : event.Safe) (h : sink.apply event = .ok (sink', update)) :
    sink'.Confined ∧ sink'.directory = sink.directory := by
  cases event
  case directory => exact applyDirectory_confined hs he h
  case fileSize => exact applyFileSize_confined hs he h
  case data => exact applyData_confined hs h
  case fileFinished => exact applyFinished_confined hs h
  case filePath =>
    cases h
    refine ⟨{ hs with pending := ?_ }, rfl⟩
    rintro _ _ ⟨⟩
    exact he
  all_goals
    cases h
    exact ⟨hs, rfl⟩

end

end Sink

end NyaTerm.Trzsz
