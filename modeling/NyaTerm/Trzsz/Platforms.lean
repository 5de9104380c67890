import NyaTerm.Trzsz.Sink

open List

-- The names of files on the two families of platforms. Windows has two separators, and names may
-- start with the letter of a drive.
namespace NyaTerm.Trzsz

inductive Family
  | unix
  | windows
  deriving DecidableEq

namespace Family

variable {family : Family}

def separator (family : Family) (c : Char) : Bool :=
  c = '/' || family = .windows && c = '\\'

-- What lies between the separators.
def pieces (family : Family) : List Char → List (List Char)
  | [] => [[]]
  | c :: cs =>
    if family.separator c then
      [] :: pieces family cs
    else
      match pieces family cs with
      | [] => [[c]]
      | p :: ps => (c :: p) :: ps

-- A name starts with the letter of a drive.
def hasDrive (family : Family) : List Char → Bool
  | c :: d :: _ => family = .windows && c.isAlpha && d = ':'
  | _ => false

def isRooted (family : Family) : List Char → Bool
  | c :: _ => family.separator c
  | [] => false

def isAnchored (family : Family) (cs : List Char) : Bool :=
  family.hasDrive cs || family.isRooted cs

def withoutDrive (family : Family) (cs : List Char) : List Char :=
  if family.hasDrive cs then cs.drop 2 else cs

-- The last component, unless it leads upwards.
def baseName (family : Family) (cs : List Char) : Option (List Char) :=
  ((family.pieces (family.withoutDrive cs)).filter fun piece =>
    piece ≠ [] ∧ piece ≠ ['.']).getLast?.filter (· ≠ ['.', '.'])

-- The base of a name and what follows its last dot, if that is not also its first character.
def splitStem (base : List Char) : List Char × Option (List Char) :=
  match base.reverse.dropWhile (· ≠ '.') with
  | _ :: before =>
    if before = [] then (base, none)
    else (before.reverse, some (base.reverse.takeWhile (· ≠ '.')).reverse)
  | [] => (base, none)

theorem mem_pieces (hp : p ∈ family.pieces cs) (hc : c ∈ p) : ¬ family.separator c ∧ c ∈ cs := by
  induction cs generalizing p
  case nil =>
    rw [pieces, mem_singleton] at hp
    simp [hp] at hc
  case cons d cs ih =>
    rw [pieces] at hp
    split at hp
    case isTrue =>
      rcases mem_cons.mp hp with rfl | hp
      case inl => simp at hc
      case inr => exact ⟨(ih hp hc).1, mem_cons_of_mem _ (ih hp hc).2⟩
    case isFalse hd =>
      split at hp
      case h_1 =>
        rw [mem_singleton] at hp
        rw [hp, mem_singleton] at hc
        exact ⟨hc ▸ hd, by simp [hc]⟩
      case h_2 q qs he =>
        rcases mem_cons.mp hp with rfl | hp
        case inl =>
          rcases mem_cons.mp hc with rfl | hc
          case inl => exact ⟨hd, by simp⟩
          case inr =>
            have h := ih (he ▸ mem_cons_self) hc
            exact ⟨h.1, mem_cons_of_mem _ h.2⟩
        case inr =>
          have h := ih (he ▸ mem_cons_of_mem _ hp) hc
          exact ⟨h.1, mem_cons_of_mem _ h.2⟩

variable {cs : List Char}

theorem pieces_of_plain (h : ∀ c ∈ cs, ¬ family.separator c) :
    family.pieces cs = [cs] := by
  induction cs
  case nil => rfl
  case cons c cs ih =>
    rw [pieces, if_neg (h c mem_cons_self), ih fun d hd => h d (mem_cons_of_mem _ hd)]

variable {cs base : List Char}

theorem baseName_eq_some (h : family.baseName cs = some base) :
    base ∈ family.pieces (family.withoutDrive cs) ∧ base ≠ [] ∧ base ≠ ['.'] ∧ base ≠ ['.', '.'] := by
  rw [baseName, Option.filter_eq_some_iff] at h
  have hm := mem_of_getLast? h.1
  rw [mem_filter] at hm
  simp only [decide_eq_true_eq] at hm h
  exact ⟨hm.1, hm.2.1, hm.2.2, h.2⟩

theorem baseName_subset (h : family.baseName cs = some base) : base ⊆ cs := by
  intro c hc
  have hm := (mem_pieces (baseName_eq_some h).1 hc).2
  rw [withoutDrive] at hm
  split at hm
  case isTrue => exact mem_of_mem_drop hm
  case isFalse => exact hm

theorem splitStem_initial (base : List Char) : (splitStem base).1 <+: base := by
  rw [splitStem]
  split
  case h_1 d before hd =>
    split
    case isTrue => exact prefix_rfl
    have hs : d :: before <:+ base.reverse := hd ▸ dropWhile_suffix _
    rw [← reverse_prefix, reverse_reverse, reverse_cons] at hs
    exact (prefix_append _ _).trans hs
  case h_2 => exact prefix_rfl

theorem splitStem_extension_subset (h : (splitStem base).2 = some extension) :
    extension ⊆ base := by
  rw [splitStem] at h
  repeat' split at h
  all_goals cases h
  intro c hc
  exact mem_reverse.mp ((List.takeWhile_prefix _).subset (mem_reverse.mp hc))

theorem isAnchored_initial (h : family.isAnchored ds = false) (hp : cs <+: ds) :
    family.isAnchored cs = false := by
  obtain ⟨rest, rfl⟩ := hp
  rw [isAnchored, Bool.or_eq_false_iff] at h ⊢
  rcases cs with _ | ⟨c, _ | ⟨d, cs⟩⟩
  case nil => exact ⟨rfl, rfl⟩
  case cons.nil => exact ⟨rfl, by simpa [isRooted] using h.2⟩
  case cons.cons => simpa [hasDrive, isRooted] using h

theorem baseName_plain (hs : ∀ c ∈ cs, ¬ family.separator c)
    (ha : family.isAnchored cs = false) (hb : family.baseName cs = some base) : base = cs := by
  rw [isAnchored, Bool.or_eq_false_iff] at ha
  have hm := (baseName_eq_some hb).1
  rw [withoutDrive, if_neg (by simp [ha.1]), pieces_of_plain hs, mem_singleton] at hm
  exact hm

theorem isAnchored_append (suffix : List Char) (h : family.isAnchored cs = false) :
    family.isAnchored (cs ++ ' ' :: suffix) = false := by
  rw [isAnchored, Bool.or_eq_false_iff] at h ⊢
  rcases cs with _ | ⟨c, _ | ⟨d, cs⟩⟩
  case nil => cases family <;> cases suffix <;> simp [hasDrive, isRooted, separator]
  case cons.nil =>
    have hc : family.separator c = false := by simpa [isRooted] using h.2
    simp [hasDrive, isRooted, hc]
  case cons.cons => simpa [hasDrive, isRooted] using h

theorem isAnchored_colon (h : family.isAnchored cs) :
    ':' ∈ cs ∨ ∃ c ∈ cs, family.separator c := by
  rw [isAnchored, Bool.or_eq_true] at h
  rcases h with h | h
  case inl =>
    rcases cs with _ | ⟨c, _ | ⟨d, cs⟩⟩
    case cons.cons =>
      simp only [hasDrive, Bool.and_eq_true, decide_eq_true_eq] at h
      exact .inl (by simp [h.2])
    all_goals cases h
  case inr =>
    cases cs
    case nil => cases h
    case cons c cs => exact .inr ⟨c, mem_cons_self, h⟩

-- The laws hold of both families.
@[reducible]
def paths (family : Family) : LocalPaths where
  separator := family.separator
  separator_eq := by
    intro c h
    simp only [separator, Bool.or_eq_true, Bool.and_eq_true, decide_eq_true_eq] at h
    exact h.imp_right And.right
  fileName name := (family.baseName name.toList).map String.ofList
  fileStem name := (family.baseName name.toList).map fun base => String.ofList (splitStem base).1
  fileExtension name :=
    (family.baseName name.toList).bind fun base => (splitStem base).2.map String.ofList
  anchor name := if family.isAnchored name.toList then some [name] else none
  fileName_normal := by
    intro name base h
    obtain ⟨cs, hb, rfl⟩ := Option.map_eq_some_iff.mp h
    obtain ⟨hm, hn, hd, hdd⟩ := baseName_eq_some hb
    refine ⟨?_, ?_, ?_, fun c hc => (mem_pieces hm (by simpa using hc)).1⟩
    · exact fun he => hn (by simpa using congrArg String.toList he)
    · exact fun he => hd (by simpa using congrArg String.toList he)
    · exact fun he => hdd (by simpa using congrArg String.toList he)
  fileName_subset := by
    intro name base h
    obtain ⟨cs, hb, rfl⟩ := Option.map_eq_some_iff.mp h
    rw [String.toList_ofList]
    exact baseName_subset hb
  fileStem_subset := by
    intro name stem h
    obtain ⟨cs, hb, rfl⟩ := Option.map_eq_some_iff.mp h
    rw [String.toList_ofList]
    exact List.Subset.trans (splitStem_initial cs).subset (baseName_subset hb)
  fileExtension_subset := by
    intro name extension h
    obtain ⟨cs, hb, h⟩ := Option.bind_eq_some_iff.mp h
    obtain ⟨es, he, rfl⟩ := Option.map_eq_some_iff.mp h
    rw [String.toList_ofList]
    exact List.Subset.trans (splitStem_extension_subset he) (baseName_subset hb)
  anchor_colon := by
    intro name h
    exact isAnchored_colon (by simpa using h)
  anchor_stem := by
    intro name stem hs ha h
    obtain ⟨cs, hb, rfl⟩ := Option.map_eq_some_iff.mp h
    have ha : family.isAnchored name.toList = false := by simpa using ha
    obtain rfl := baseName_plain hs ha hb
    simpa using isAnchored_initial ha (splitStem_initial _)
  anchor_append := by
    intro stem suffix h
    have h : family.isAnchored stem.toList = false := by simpa using h
    simpa using isAnchored_append _ h

end Family

namespace Sample

-- A file system that remembers what was created.
@[reducible]
def memoryHost : Host where
  World := List Path
  pathExists world path := path ∈ world
  createDirAll world path := .ok (path :: world)
  createNew world path := if path ∈ world then .error "File exists" else .ok (path :: world)
  createNew_fresh := by
    intro world world' path h hp
    rw [if_pos (by simpa using hp)] at h
    cases h
  writeAll world _ _ := .ok world
  flush world _ := .ok world
  millis _ := 0
  stopped _ := false

-- Entries are written as their path: a directory of which an archive is sent, or a file in it.
def plainEntry (text : String) : Option SourceFile :=
  if text = "d" then some ⟨0, ["d"], true, true, 6⟩
  else if text = "d/f" then some ⟨0, ["d", "f"], false, false, 4⟩
  else none

-- Data is sent as it is, and configurations are the number of a protocol.
@[reducible]
def plainLibrary : Library where
  Decoder := Unit
  newDecoder _ _ := .ok ()
  decode _ bytes _ := ([bytes], .ok ())
  md5 bytes := bytes ++ [0]
  md5_ne_nil bytes := by simp
  decodeString := some
  readSourceFile := plainEntry
  readConfig bytes :=
    match bytes with
    | [version] => some { Config.localDefault with protocol := some version.toNat }
    | _ => none

end Sample

end NyaTerm.Trzsz
