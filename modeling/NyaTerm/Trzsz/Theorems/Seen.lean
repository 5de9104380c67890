import Mathlib.Data.List.DropRight
import NyaTerm.Trzsz.Detector

open List

namespace NyaTerm.Trzsz

variable (windows : Bool)

-- The identifiers that are stored on the way, which are those not recognised when they appear.
def stored : List (String × Nat) → List Trigger → List String
  | _, [] => []
  | seen, trigger :: triggers =>
    (if isRepeated windows seen trigger then [] else (trackedId windows trigger).toList) ++
      stored (observe windows seen trigger) triggers

-- What is left of the identifiers that were stored, with their places as order numbers.
def Remembers (ids : List String) (seen : List (String × Nat)) : Prop :=
  ∃ n ≤ ids.length, seen = (ids.drop n).zipIdx ∧ (ids.drop n).Nodup ∧
    (ids.drop n).length ≤ 101 ∧ (n = 0 ∨ 52 ≤ (ids.drop n).length)

-- The older entries are evicted, and the order numbers of the newer ones begin at zero again.
theorem evict_zipIdx {ids : List String} (h : 50 ≤ ids.length) :
    (ids.zipIdx.filter (50 ≤ ·.2)).map (fun entry => (entry.1, entry.2 - 50)) =
      (ids.drop 50).zipIdx := by
  have htake : (ids.take 50).length = 50 := length_take_of_le h
  have hold : (ids.take 50).zipIdx.filter (50 ≤ ·.2) = [] := by
    refine filter_eq_nil_iff.mpr fun entry hm => ?_
    have := (mem_zipIdx hm).2.1
    simp
    omega
  have hnew : ((ids.drop 50).zipIdx 50).filter (50 ≤ ·.2) = (ids.drop 50).zipIdx 50 :=
    filter_eq_self.mpr fun entry hm => by simpa using (mem_zipIdx hm).1
  nth_rewrite 1 [← take_append_drop 50 ids]
  rw [zipIdx_append, filter_append, htake, hold, hnew, nil_append, zipIdx_eq_map_add, map_map]
  simp [Function.comp_def]

variable {windows}

theorem isRepeated_zipIdx {ids : List String} (h : trackedId windows trigger = some uniqueId) :
    isRepeated windows ids.zipIdx trigger ↔ uniqueId ∈ ids := by
  rw [isRepeated, h]
  simp [mem_iff_getElem?]

-- One more entry, which is none of those that are kept.
theorem remembers_add {ids : List String} (hm : m ≤ ids.length) (hd : (ids.drop m).Nodup)
    (hr : uniqueId ∉ ids.drop m) (hle : (ids.drop m).length ≤ 100)
    (hlast : m = 0 ∨ 51 ≤ (ids.drop m).length) :
    Remembers (ids ++ [uniqueId])
      ((ids.drop m).zipIdx ++ [(uniqueId, (ids.drop m).zipIdx.length)]) := by
  have hdrop : (ids ++ [uniqueId]).drop m = ids.drop m ++ [uniqueId] := drop_append_of_le_length hm
  have hlength : (ids.drop m ++ [uniqueId]).length = (ids.drop m).length + 1 := length_append
  refine ⟨m, by simp; omega, ?_⟩
  rw [hdrop, hlength]
  refine ⟨by simp [zipIdx_append], nodup_append.mpr ⟨hd, pairwise_singleton _ _, ?_⟩, by omega, by omega⟩
  rintro _ ha _ hb rfl
  exact hr (mem_singleton.mp hb ▸ ha)

theorem observe_remembers (h : Remembers ids seen) :
    Remembers (ids ++ if isRepeated windows seen trigger then [] else
      (trackedId windows trigger).toList) (observe windows seen trigger) := by
  rw [observe]
  split
  case isTrue => simpa using h
  case isFalse hr =>
    rw [remember]
    cases hid : trackedId windows trigger
    case none => simpa using h
    case some uniqueId =>
      obtain ⟨n, hn, rfl, hd, hl, hlast⟩ := h
      rw [isRepeated_zipIdx hid] at hr
      rw [Option.toList_some]
      dsimp only
      rw [length_zipIdx]
      split
      case isTrue hfull =>
        have hs : ids.drop (n + 50) <+ ids.drop n := by
          rw [← drop_drop]
          exact drop_sublist _ _
        rw [evict_zipIdx (by omega), drop_drop]
        rw [length_drop] at hl hfull
        refine remembers_add (by omega) (hd.sublist hs) (fun hm => hr (hs.subset hm)) ?_ ?_
        all_goals
          rw [length_drop]
          omega
      case isFalse => exact remembers_add hn hd hr (by omega) (by omega)

theorem observeAll_remembers (h : Remembers ids seen) :
    Remembers (ids ++ stored windows seen triggers) (triggers.foldl (observe windows) seen) := by
  induction triggers generalizing ids seen
  case nil => simpa [stored] using h
  case cons trigger triggers ih =>
    rw [stored, ← append_assoc]
    exact ih (observe_remembers h)

-- The order numbers are the places of the entries. The last fifty-two identifiers that were stored
-- are recognised.
theorem last_stored_ids_are_recognised (windows : Bool) (triggers : List Trigger) :
    let seen := triggers.foldl (observe windows) []
    seen.map Prod.snd = range seen.length ∧ seen.length ≤ 101 ∧ (seen.map Prod.fst).Nodup ∧
    ∀ trigger, ∀ id ∈ trackedId windows trigger, id ∈ (stored windows [] triggers).rtake 52 →
      isRepeated windows seen trigger := by
  have hinit : Remembers [] [] := ⟨0, Nat.le_refl 0, rfl, nodup_nil, by simp, .inl rfl⟩
  obtain ⟨n, hn, he, hd, hl, hlast⟩ := @observeAll_remembers windows [] [] triggers hinit
  rw [nil_append] at hn he hd hl hlast
  dsimp only
  rw [he]
  refine ⟨by simp [range_eq_range'], by simpa using hl, by simpa using hd, fun trigger id hid hm => ?_⟩
  refine (isRepeated_zipIdx hid).mpr ?_
  rw [rtake] at hm
  refine (drop_sublist_drop_left _ ?_).subset hm
  rw [length_drop] at hlast
  omega

end NyaTerm.Trzsz

namespace NyaTerm.Trzsz.Sample

def numbered (n : Nat) : Trigger := ⟨.send, "1.1.6", some (toString (1000000 + n)), false, none, []⟩

theorem trackedId_numbered : trackedId true (numbered n) = some (1000000 + n).repr := by
  have : ¬ (1000000 + n).repr.length ≤ 6 := by simp [Nat.length_repr_le_iff]
  simpa [trackedId, numbered, shouldTrack] using this

theorem isRepeated_numbered {ns : List Nat} :
    isRepeated true (ns.map (1000000 + · |>.repr)).zipIdx (numbered n) ↔ n ∈ ns := by
  rw [isRepeated_zipIdx trackedId_numbered, mem_map]
  refine ⟨?_, fun h => ⟨n, h, rfl⟩⟩
  rintro ⟨m, hm, he⟩
  -- A number is read back from its text, so equal identifiers have equal numbers.
  have := congrArg (Nat.ofDigitChars 10 · 0) (String.ofList_injective he)
  simp only [Nat.ofDigitChars_ten_toDigits, Nat.add_left_cancel_iff] at this
  exact this ▸ hm

-- A hundred and one different identifiers are all kept.
theorem observeAll_numbered (h : n ≤ 101) :
    ((range n).map numbered).foldl (observe true) [] =
      ((range n).map (1000000 + · |>.repr)).zipIdx := by
  induction n
  case zero => rfl
  case succ n ih =>
    have hr := mt (@isRepeated_numbered n (range n)).mp (by simp)
    have hl : ¬ 100 < n := by omega
    rw [range_succ, map_append, foldl_append, ih (by omega)]
    simp [observe, hr, remember, trackedId_numbered, zipIdx_append, hl]

-- The first of a hundred and one identifiers appears again just before the next new one, which
-- evicts it.
theorem repeated_id_is_forgotten :
    let triggers := (range 101).map numbered ++ [numbered 0, numbered 101]
    (∀ trigger ∈ triggers, (trackedId true trigger).isSome) ∧
    ¬ isRepeated true (triggers.foldl (observe true) []) (numbered 0) := by
  intro triggers
  refine ⟨fun trigger hm => ?_, ?_⟩
  · simp only [triggers, mem_append, mem_map, mem_cons, not_mem_nil, or_false] at hm
    obtain ⟨n, -, rfl⟩ | rfl | rfl := hm <;> simp [trackedId_numbered]
  · have hfirst := (@isRepeated_numbered 0 (range 101)).mpr (by simp)
    have hnew := mt (@isRepeated_numbered 101 (range 101)).mp (by simp)
    have hlast := mt (@isRepeated_numbered 0 ((range 101).drop 50 ++ [101])).mp (by decide)
    rw [foldl_append, observeAll_numbered (Nat.le_refl _), foldl_cons, foldl_cons, foldl_nil,
      observe, observe, if_pos hfirst, if_neg hnew, remember, trackedId_numbered]
    dsimp only
    rw [if_pos (by simp), evict_zipIdx (by simp)]
    simpa [zipIdx_append] using hlast

end NyaTerm.Trzsz.Sample
