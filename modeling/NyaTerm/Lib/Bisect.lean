import Mathlib.Data.List.Perm.Basic
import Mathlib.Data.List.TakeDrop

-- Applying as many of a list of changes as a validity test allows. A batch is applied as a whole
-- when that is valid; otherwise its halves are tried one after the other, down to single changes.
namespace Bisect

variable (valid : σ → Bool) (act : σ → γ → σ)

def batch : List γ → σ → σ × List γ
  | [], s => (s, [])
  | [g], s => if valid (act s g) then (act s g, []) else (s, [g])
  | g :: h :: gs, s =>
    let groups := g :: h :: gs
    if valid (groups.foldl act s) then
      (groups.foldl act s, [])
    else
      let first := batch (groups.take (groups.length / 2)) s
      let second := batch (groups.drop (groups.length / 2)) first.1
      (second.1, first.2 ++ second.2)
termination_by groups => groups.length
decreasing_by all_goals simp; omega

-- A batch is split into the changes that were made, in the order they were made, and the deferred
-- ones. A batch that is deferred entirely has changed nothing, and none of its changes is valid.
structure Split (groups : List γ) (s s' : σ) (made deferred : List γ) : Prop where
  perm : groups.Perm (made ++ deferred)
  state : s' = made.foldl act s
  sound : valid s → valid s'
  stuck : made = [] → ∀ g ∈ groups, !valid (act s g)

variable {valid act} in
theorem Split.append {gs hs ms ns ds es : List γ} {s t u : σ} (h₁ : Split valid act gs s t ms ds)
    (h₂ : Split valid act hs t u ns es) : Split valid act (gs ++ hs) s u (ms ++ ns) (ds ++ es) where
  perm := by
    refine (h₁.perm.append h₂.perm).trans ?_
    simp only [List.append_assoc]
    refine .append_left _ ?_
    simp only [← List.append_assoc]
    exact .append_right _ List.perm_append_comm
  state := by rw [List.foldl_append, ← h₁.state, h₂.state]
  sound h := h₂.sound (h₁.sound h)
  stuck h g hg := by
    simp only [List.append_eq_nil_iff] at h
    have ht : t = s := by simpa [h.1] using h₁.state
    rcases List.mem_append.mp hg with hg | hg
    · exact h₁.stuck h.1 g hg
    · exact ht ▸ h₂.stuck h.2 g hg

theorem batch_split (groups : List γ) (s : σ) :
    ∃ made, Split valid act groups s (batch valid act groups s).1 made
      (batch valid act groups s).2 := by
  fun_induction batch valid act groups s
  case case1 s => exact ⟨[], by simp, rfl, id, by simp⟩
  case case2 g s hv => exact ⟨[g], by simp, rfl, fun _ => hv, by simp⟩
  case case3 g s hv => exact ⟨[], by simp, rfl, id, by simpa using hv⟩
  case case4 g h gs s groups hv => exact ⟨groups, by simp [groups], rfl, fun _ => hv, by simp [groups]⟩
  case case5 g h gs s groups _ first second h₁ _ h₂ =>
    have ⟨ms, h₁⟩ := h₁
    have ⟨ns, h₂⟩ := h₂
    have h := h₁.append h₂
    rw [List.take_append_drop] at h
    exact ⟨ms ++ ns, h⟩

theorem batch_length_le (groups : List γ) (s : σ) :
    (batch valid act groups s).2.length ≤ groups.length := by
  have ⟨made, h⟩ := batch_split valid act groups s
  rw [h.perm.length_eq, List.length_append]
  omega

-- Passes over what the last pass deferred, until a pass defers all of it.
def settle (pending : List γ) (s : σ) : σ × List γ :=
  let pass := batch valid act pending s
  if pass.2.length = pending.length then
    pass
  else if pass.2.isEmpty then
    (pass.1, [])
  else
    settle pass.2 pass.1
termination_by pending.length
decreasing_by
  have := batch_length_le valid act pending s
  simp only [pass] at *
  omega

-- What is settled is made of changes of the batch, is valid and admits no deferred change.
structure Settled (pending : List γ) (s s' : σ) (made deferred : List γ) : Prop where
  perm : pending.Perm (made ++ deferred)
  state : s' = made.foldl act s
  sound : valid s → valid s'
  maximal : ∀ g ∈ deferred, !valid (act s' g)

variable {valid act} in
theorem Split.settled (h : Split valid act pending s s' made deferred)
    (hl : deferred.length = pending.length) : Settled valid act pending s s' made deferred := by
  have hm : made = [] := by
    have := h.perm.length_eq
    simp only [List.length_append] at this
    exact List.eq_nil_of_length_eq_zero (by omega)
  have hs : s' = s := by simpa [hm] using h.state
  exact ⟨h.perm, h.state, h.sound, fun g hg => hs ▸ h.stuck hm g (h.perm.mem_iff.mpr (by simp [hg]))⟩

theorem settle_settled (pending : List γ) (s : σ) :
    ∃ made, Settled valid act pending s (settle valid act pending s).1 made
      (settle valid act pending s).2 := by
  fun_induction settle valid act pending s
  case case1 pending s pass hl =>
    have ⟨made, h⟩ := batch_split valid act pending s
    exact ⟨made, h.settled hl⟩
  case case2 pending s pass _ he =>
    have ⟨made, h⟩ := batch_split valid act pending s
    have hd : (batch valid act pending s).2 = [] := by simpa using he
    exact ⟨made, by simpa [hd] using h.perm, h.state, h.sound, by simp⟩
  case case3 pending s pass _ _ hi =>
    have ⟨made, h⟩ := batch_split valid act pending s
    have ⟨rest, hr⟩ := hi
    refine ⟨made ++ rest, ?_, ?_, fun h' => hr.sound (h.sound h'), hr.maximal⟩
    · exact h.perm.trans (by simpa using hr.perm.append_left made)
    · rw [hr.state, h.state, List.foldl_append]

end Bisect
