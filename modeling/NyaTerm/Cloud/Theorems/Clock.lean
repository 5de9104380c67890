import Mathlib.Data.Fintype.Order
import Mathlib.Order.WellFounded
import NyaTerm.Cloud.Heads
import NyaTerm.Lib.Fallible

open Std Relation

namespace NyaTerm

open ExtTreeMap

namespace SnapshotSyncClock

variable {a b : SnapshotSyncClock}

@[simp]
theorem count_empty : empty.count device = 0 := rfl

theorem mem_counters : (device, n) ∈ a.counters.toList ↔ a.counters[device]? = some n :=
  mem_toList_iff_getElem?_eq_some

theorem count_eq_of_mem (h : (device, n) ∈ a.counters.toList) : a.count device = n := by
  rw [mem_counters] at h
  simp [count, getD_eq_getD_getElem?, h]

theorem mem_of_count_pos (h : 0 < a.count device) :
    (device, a.count device) ∈ a.counters.toList := by
  rw [count, getD_eq_getD_getElem?] at h
  rw [mem_counters, count, getD_eq_getD_getElem?]
  cases hd : a.counters[device]? <;> simp_all

-- Counters that are missing count as zero on both sides: the comparison is the pointwise order.
theorem all_counters_iff :
    (b.counters.toList.all fun (device, count) => a.count device ≥ count) ↔ b.count ≤ a.count := by
  simp only [List.all_eq_true, Prod.forall, decide_eq_true_eq, Pi.le_def]
  constructor
  case mp =>
    intro h device
    rcases Nat.eq_zero_or_pos (b.count device) with hb | hb
    · omega
    · exact h _ _ (mem_of_count_pos hb)
  case mpr =>
    intro h device n hm
    exact count_eq_of_mem hm ▸ h device

theorem any_counters_iff :
    (a.counters.toList.any fun (device, count) => count > b.count device) ↔
      ∃ device, b.count device < a.count device := by
  simp only [List.any_eq_true, Prod.exists, decide_eq_true_eq]
  constructor
  case mp =>
    rintro ⟨device, n, hm, h⟩
    exact ⟨device, count_eq_of_mem hm ▸ h⟩
  case mpr =>
    rintro ⟨device, h⟩
    exact ⟨device, _, mem_of_count_pos (by omega), h⟩

theorem strictlyDominates_iff : a.strictlyDominates b ↔ b.count < a.count := by
  rw [strictlyDominates, Bool.and_eq_true, all_counters_iff, any_counters_iff, Pi.lt_def]

theorem strictlyDominates_irrefl : ¬ a.strictlyDominates a := by
  simp [strictlyDominates_iff]

theorem strictlyDominates_asymm (h : a.strictlyDominates b) : ¬ b.strictlyDominates a := by
  rw [strictlyDominates_iff] at h ⊢
  exact h.asymm

theorem strictlyDominates_trans (h₁ : a.strictlyDominates b) (h₂ : b.strictlyDominates c) :
    a.strictlyDominates c := by
  rw [strictlyDominates_iff] at h₁ h₂ ⊢
  exact h₂.trans h₁

theorem getD_foldl_of_not_mem {l : List (String × Nat)} (h : ∀ k, (device, k) ∉ l)
    (m : BTreeMap String Nat) :
    (l.foldl (fun counters (device, count) =>
      counters.alter device fun current => some (current.elim count (max · count))) m).getD device 0 =
      m.getD device 0 := by
  induction l generalizing m
  case nil => rfl
  case cons x l hi =>
    have ⟨d, k⟩ := x
    have hd : d ≠ device := fun hd => h k (by simp [hd])
    rw [List.foldl_cons, hi fun j hj => h j (by simp [hj])]
    simp [hd, getD_eq_getD_getElem?, getElem?_alter]

theorem getD_foldl_max {l : List (String × Nat)} (hn : ∀ k, (device, k) ∈ l → k = n)
    (hz : (∀ k, (device, k) ∉ l) → n = 0) (m : BTreeMap String Nat) :
    (l.foldl (fun counters (device, count) =>
      counters.alter device fun current => some (current.elim count (max · count))) m).getD device 0 =
      max (m.getD device 0) n := by
  induction l generalizing m
  case nil => simp [hz]
  case cons x l hi =>
    have ⟨d, k⟩ := x
    rw [List.foldl_cons]
    by_cases hd : d = device
    case pos =>
      obtain rfl := hd
      obtain rfl := hn k (by simp)
      have hg : (m.alter d fun current => some (current.elim k (max · k))).getD d 0 =
          max (m.getD d 0) k := by
        simp only [getD_eq_getD_getElem?, getElem?_alter, compare_self,
          if_true, Option.getD_some]
        cases m[d]? <;> simp
      by_cases hl : ∀ j, (d, j) ∉ l
      case pos => rw [getD_foldl_of_not_mem hl, hg]
      rw [hi (fun j hj => hn j (by simp [hj])) (fun h => absurd h hl), hg]
      omega
    case neg =>
      rw [hi (fun j hj => hn j (by simp [hj])) fun h => hz (by simp [h, Ne.symm hd])]
      simp [hd, getD_eq_getD_getElem?, getElem?_alter]

@[simp]
theorem count_merge : (a.merge b).count device = max (a.count device) (b.count device) := by
  refine getD_foldl_max (fun k hk => (count_eq_of_mem hk).symm) (fun h => ?_) a.counters
  by_contra hb
  exact h _ (mem_of_count_pos (Nat.pos_of_ne_zero hb))

theorem le_foldl_merge (clocks : List SnapshotSyncClock) (c : SnapshotSyncClock) :
    c.count ≤ (clocks.foldl merge c).count ∧ ∀ b ∈ clocks, b.count ≤ (clocks.foldl merge c).count := by
  induction clocks generalizing c
  case nil => simp
  case cons a clocks hi =>
    have ⟨hc, hm⟩ := hi (c.merge a)
    have ha : c.count ≤ (c.merge a).count ∧ a.count ≤ (c.merge a).count := by
      constructor <;> intro device <;> simp
    simp only [List.foldl_cons, List.forall_mem_cons]
    exact ⟨ha.1.trans hc, ha.2.trans hc, hm⟩

theorem count_foldl_merge (clocks : List SnapshotSyncClock) (c : SnapshotSyncClock)
    (device : String) : (clocks.foldl merge c).count device = c.count device ∨
      ∃ b ∈ clocks, (clocks.foldl merge c).count device = b.count device := by
  induction clocks generalizing c
  case nil => simp
  case cons a clocks hi =>
    rw [List.foldl_cons]
    rcases hi (c.merge a) with h | ⟨b, hb, h⟩
    · rw [h, count_merge]
      rcases le_total (c.count device) (a.count device) with hm | hm
      · exact .inr ⟨a, by simp, by simp [hm]⟩
      · exact .inl (by simp [hm])
    · exact .inr ⟨b, by simp [hb], h⟩

end SnapshotSyncClock

namespace RemoteHeads

open SnapshotSyncClock

variable {r : RemoteHeads}

theorem count_mergedClock : (r.mergedClock previous).count =
    ((r.heads.filterMap (·.syncClock)).foldl .merge (previous.getD .empty)).count := rfl

theorem le_mergedClock :
    (∀ clock ∈ previous, clock.count ≤ (r.mergedClock previous).count) ∧
      ∀ head ∈ r.heads, ∀ clock ∈ head.syncClock, clock.count ≤ (r.mergedClock previous).count := by
  have h := le_foldl_merge (r.heads.filterMap (·.syncClock)) (previous.getD .empty)
  constructor
  case left =>
    rintro clock rfl
    exact h.1
  case right =>
    intro head hh clock hc
    exact h.2 clock (List.mem_filterMap.mpr ⟨head, hh, hc⟩)

structure Ticks (r : RemoteHeads) (previous : Option SnapshotSyncClock) (device : String)
    (next : SnapshotSyncClock) : Prop where
  valid : next.validate = .ok ()
  bound : (r.mergedClock previous).count device < maxCounter
  own : next.count device = (r.mergedClock previous).count device + 1
  others : ∀ d ≠ device, next.count d = (r.mergedClock previous).count d
  legacy : next.legacyRevision = (r.mergedClock previous).legacyRevision

theorem nextClock_eq_ok :
    r.nextClock previous device = .ok next → r.Ticks previous device next := by
  intro h
  simp only [nextClock] at h
  split at h
  · simp [throw, throwThe, MonadExceptOf.throw, bind, Except.bind] at h
  · rename_i hb
    simp only [Fallible.bind_eq_ok, Fallible.pure_eq_ok] at h
    obtain ⟨_, hv, rfl⟩ := h
    exact {
      valid := hv
      bound := by omega
      own := by simp [count, advance]
      others := fun d hd => by simp [count, advance, getD_insert, hd.symm]
      legacy := rfl
    }

-- Only a counter or the clock as a whole can be too large, or a device has no usable name.
theorem nextClock_cases (r : RemoteHeads) (previous : Option SnapshotSyncClock) (device : String) :
    (∃ next, r.nextClock previous device = .ok next) ∨
      maxCounter ≤ (r.mergedClock previous).count device ∧
        r.nextClock previous device = .error (.remote "cloud sync device counter exhausted") ∨
      ((r.mergedClock previous).advance device).validate ≠ .ok () ∧
        r.nextClock previous device = .error (.remote "invalid cloud sync causal clock") := by
  simp only [nextClock]
  split
  case isTrue hc => exact .inr (.inl ⟨hc, rfl⟩)
  cases hv : ((r.mergedClock previous).advance device).validate
  case ok => exact .inl ⟨_, rfl⟩
  case error e =>
    rw [validate] at hv
    split at hv <;> cases hv
    exact .inr (.inr ⟨nofun, rfl⟩)

variable (h : r.Ticks previous device next)
include h

theorem Ticks.le : (r.mergedClock previous).count ≤ next.count := by
  intro d
  by_cases hd : d = device
  · subst hd
    rw [h.own]
    exact Nat.le_succ _
  · exact (h.others d hd).ge

theorem Ticks.dominates_of_le (hc : clock.count ≤ (r.mergedClock previous).count) :
    next.strictlyDominates clock := by
  rw [strictlyDominates_iff, Pi.lt_def]
  refine ⟨hc.trans h.le, device, ?_⟩
  rw [h.own]
  exact Nat.lt_succ_of_le (hc device)

theorem Ticks.dominates_previous :
    ∀ clock ∈ previous, next.strictlyDominates clock :=
  fun clock hc => h.dominates_of_le (le_mergedClock.1 clock hc)

theorem Ticks.dominates_head :
    ∀ head ∈ r.heads, ∀ clock ∈ head.syncClock, next.strictlyDominates clock :=
  fun head hh clock hc => h.dominates_of_le (le_mergedClock.2 head hh clock hc)

theorem Ticks.legacyRevision :
    ∀ latest ∈ r.compatibility, latest.syncClock = none →
      next.legacyRevision = some latest.revisionId := by
  rintro latest hl hn
  rw [h.legacy, mergedClock, Option.mem_def.mp hl]
  simp [hn]

end RemoteHeads

end NyaTerm
