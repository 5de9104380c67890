import NyaTerm.Tmux.Mailbox

open List

namespace NyaTerm.Tmux.Mailbox

variable {c : Config}
namespace State

variable {state : State}

theorem reserve_ok {bytes : Nat} (h : state.reserve isClosed bytes ticket = .ok (state', permit)) :
    state'.generation = state.generation ∧ state'.suspended = state.suspended ∧
      permit.generation = state.generation ∧ permit.ticket = ticket := by
  unfold reserve at h
  split at h
  case isTrue => cases h
  split at h
  case isTrue => cases h
  split at h
  case isTrue => cases h
  cases h
  exact ⟨rfl, rfl, rfl, rfl⟩

theorem control_ok (h : state.control command = .ok state') :
    state'.generation = state.generation ∧ state'.suspended = state.suspended := by
  unfold control at h
  split at h
  case h_1 | h_2 =>
    split at h
    case isTrue => cases h
    case isFalse => cases h; exact ⟨rfl, rfl⟩
  case h_3 => cases h; exact ⟨rfl, rfl⟩

theorem ControlTakes.frame (h : state.ControlTakes command state') :
    state'.generation = state.generation ∧ state'.suspended = state.suspended := by
  cases h <;> exact ⟨rfl, rfl⟩

theorem admits_iff : state.admits permit ↔
    state.stopped = false ∧ state.suspended = false ∧ permit.generation = state.generation := by
  simp [admits, and_assoc]

end State

theorem mem_of_split {after : List PendingCommand} (h : c.reserved = before ++ pending :: after)
    (hp : p ∈ before ++ after) : p ∈ c.reserved := by
  rw [h]
  rcases mem_append.mp hp with hp | hp
  · exact mem_append_left _ hp
  · exact mem_append_right _ (.tail _ hp)

-- No reservation is of a later generation, and the tickets given out are below the next one.
structure Known (seen : List Label) (c : Config) : Prop where
  reserved : ∀ p ∈ c.reserved, p.permit.generation ≤ c.state.generation
  tickets : ∀ t, .reserved t ∈ seen → t < c.nextTicket

theorem Known.more (hk : Known seen c) (ha : ∀ t, a ≠ .reserved t)
    (hr : ∀ p ∈ c'.reserved, p.permit.generation ≤ c'.state.generation)
    (hn : c'.nextTicket = c.nextTicket) : Known (seen ++ [a]) c' := by
  refine ⟨hr, fun t ht => ?_⟩
  rcases mem_append.mp ht with ht | ht
  · exact hn ▸ hk.tickets t ht
  · exact absurd (mem_singleton.mp ht).symm (ha t)

theorem Step.known (h : Step c a c') (hk : Known seen c) : Known (seen ++ [a]) c' := by
  cases h
  case reserve command state permit _ _ hr =>
    obtain ⟨hg, -, hpg, -⟩ := State.reserve_ok hr
    refine ⟨fun p hp => ?_, fun t ht => ?_⟩
    · rcases mem_append.mp hp with hp | hp
      · exact hg ▸ hk.reserved p hp
      · cases mem_singleton.mp hp
        exact Nat.le_of_eq (hpg.trans hg.symm)
    · rcases mem_append.mp ht with ht | ht
      · exact Nat.lt_succ_of_lt (hk.tickets t ht)
      · cases mem_singleton.mp ht
        exact Nat.lt_succ_self _
  case enqueue hs _ _ | refuse hs _ =>
    exact hk.more (by simp) (fun p hp => hk.reserved p (mem_of_split hs hp)) rfl
  case control hc =>
    exact hk.more (by simp) (fun p hp => (State.control_ok hc).1 ▸ hk.reserved p hp) rfl
  case controlReceive hc =>
    exact hk.more (by simp) (fun p hp => hc.frame.1 ▸ hk.reserved p hp) rfl
  case discard =>
    exact hk.more (by simp) (fun p hp => Nat.le_succ_of_le (hk.reserved p hp)) rfl
  all_goals exact hk.more (by simp) hk.reserved rfl

-- Tickets below the fence are of an older generation, and none of them is in a queue that can be
-- received from.
structure Fenced (b : Nat) (c : Config) : Prop where
  next : b ≤ c.nextTicket
  reserved : ∀ p ∈ c.reserved, p.permit.ticket < b → p.permit.generation < c.state.generation
  queue : c.consumer ≠ .draining → ∀ p ∈ c.queue, b ≤ p.permit.ticket

theorem Step.fenced (h : Step c a c') (hf : Fenced b c) : Fenced b c' := by
  have hnext := hf.next
  cases h
  case reserve command state permit _ _ hr =>
    obtain ⟨hg, -, -, hpt⟩ := State.reserve_ok hr
    refine ⟨Nat.le_succ_of_le hnext, fun p hp ht => ?_, hf.queue⟩
    rcases mem_append.mp hp with hp | hp
    · exact hg ▸ hf.reserved p hp ht
    · cases mem_singleton.mp hp
      rw [hpt] at ht
      omega
  case enqueue before pending after hs ha _ =>
    refine ⟨hnext, fun p hp ht => hf.reserved p (mem_of_split hs hp) ht, fun hd p hp => ?_⟩
    rcases mem_append.mp hp with hp | hp
    · exact hf.queue hd p hp
    · -- The generation of a ticket below the fence is not the one that is asked for.
      cases mem_singleton.mp hp
      by_contra hlt
      have := hf.reserved pending (hs ▸ by simp) (by omega)
      have := (State.admits_iff.mp ha).2.2
      omega
  case refuse hs _ =>
    exact ⟨hnext, fun p hp ht => hf.reserved p (mem_of_split hs hp) ht, hf.queue⟩
  case control hc =>
    exact ⟨hnext, fun p hp ht => (State.control_ok hc).1 ▸ hf.reserved p hp ht, hf.queue⟩
  case controlReceive hc =>
    exact ⟨hnext, fun p hp ht => hc.frame.1 ▸ hf.reserved p hp ht, hf.queue⟩
  case receive hi hq =>
    exact ⟨hnext, hf.reserved, fun hd p hp => hf.queue hd p (hq ▸ .tail _ hp)⟩
  case discard =>
    exact ⟨hnext, fun p hp ht => Nat.lt_succ_of_lt (hf.reserved p hp ht),
      fun hd => absurd rfl hd⟩
  case tryReceive hi hq =>
    exact ⟨hnext, hf.reserved, fun hd => absurd hi hd⟩
  case drained hq =>
    exact ⟨hnext, hf.reserved, fun _ p hp => by rw [hq] at hp; cases hp⟩
  case resume | drop => exact { hf with next := hnext }
  case stop => exact ⟨hnext, hf.reserved, nofun⟩

theorem Step.received_fenced (h : Step c (.received t) c') (hf : Fenced b c) : b ≤ t := by
  cases h
  case receive hi hq => exact hf.queue (by rw [hi]; decide) _ (hq ▸ .head _)

theorem Step.fence (h : Step c .discard c') (hk : Known seen c) : Fenced c.nextTicket c' := by
  cases h
  case discard =>
    exact ⟨Nat.le_refl _, fun p hp _ => Nat.lt_succ_of_le (hk.reserved p hp),
      fun hd => absurd rfl hd⟩

-- While the mailbox is suspended nothing stands in the queue, unless the discard is under way.
structure Suspends (c : Config) : Prop where
  draining : c.consumer = .draining → c.state.suspended
  empty : c.consumer ≠ .draining → c.state.suspended → c.queue = []

theorem Step.suspends (h : Step c a c') (hs : Suspends c) : Suspends c' := by
  cases h
  case reserve hr =>
    obtain ⟨-, hsus, -, -⟩ := State.reserve_ok hr
    exact ⟨fun hd => hsus ▸ hs.draining hd, fun hd he => hs.empty hd (hsus ▸ he)⟩
  case enqueue ha _ =>
    have hsus := (State.admits_iff.mp ha).2.1
    exact ⟨hs.draining, fun _ he => by rw [hsus] at he; cases he⟩
  case control hc =>
    have hsus := (State.control_ok hc).2
    exact ⟨fun hd => hsus ▸ hs.draining hd, fun hd he => hs.empty hd (hsus ▸ he)⟩
  case controlReceive hc =>
    have hsus := hc.frame.2
    exact ⟨fun hd => hsus ▸ hs.draining hd, fun hd he => hs.empty hd (hsus ▸ he)⟩
  case receive hi hq =>
    refine ⟨hs.draining, fun hd he => ?_⟩
    rw [hs.empty hd he] at hq
    cases hq
  case discard => exact ⟨fun _ => rfl, fun hd => absurd rfl hd⟩
  case tryReceive hi hq => exact ⟨hs.draining, fun hd => absurd hi hd⟩
  case drained hd hq => exact ⟨nofun, fun _ _ => hq⟩
  case resume hi =>
    refine ⟨fun hd => ?_, nofun⟩
    rw [hi] at hd
    cases hd
  case stop => exact ⟨nofun, fun _ _ => rfl⟩
  all_goals exact ⟨hs.draining, hs.empty⟩

theorem Step.suspended (ha : a ≠ .resumed) (h : Step c a c') (hs : c.state.suspended) :
    c'.state.suspended := by
  cases h
  case reserve hr => exact (State.reserve_ok hr).2.1 ▸ hs
  case control hc => exact (State.control_ok hc).2 ▸ hs
  case controlReceive hc => exact hc.frame.2 ▸ hs
  case discard => rfl
  case resume => exact absurd rfl ha
  all_goals exact hs

-- What has been put into the queue has been received or is still there, in the same order.
structure InOrder (seen : List Label) (c : Config) : Prop where
  consumer : c.consumer = .idle
  order : enqueued seen = received seen ++ tickets c.queue

theorem InOrder.more (ho : InOrder seen c) (hr : a.receivedTicket = none)
    (he : a.enqueuedTicket = none) (hc : c'.consumer = c.consumer) (hq : c'.queue = c.queue) :
    InOrder (seen ++ [a]) c' := by
  refine ⟨hc ▸ ho.consumer, ?_⟩
  have h := ho.order
  simp only [enqueued, received] at h ⊢
  simp [filterMap_append, hr, he, hq, h]

theorem Step.inOrder (ha : a ≠ .discard ∧ a ≠ .stopped) (h : Step c a c') (ho : InOrder seen c) :
    InOrder (seen ++ [a]) c' := by
  have hi := ho.consumer
  have hs := ho.order
  simp only [enqueued, received, tickets] at hs
  cases h
  case enqueue =>
    refine ⟨hi, ?_⟩
    simp [enqueued, received, tickets, filterMap_append, Label.enqueuedTicket,
      Label.receivedTicket, hs]
  case receive hq =>
    refine ⟨hi, ?_⟩
    simp [enqueued, received, tickets, filterMap_append, Label.enqueuedTicket,
      Label.receivedTicket, hs, hq]
  case discard => exact absurd rfl ha.1
  case stop => exact absurd rfl ha.2
  case tryReceive hd _ | drained hd _ => rw [hi] at hd; cases hd
  all_goals exact ho.more rfl rfl rfl rfl

theorem receive_all (hi : c.consumer = .idle) :
    ∃ labels c', Run c labels c' ∧ received labels = tickets c.queue ∧
      labels.length = c.queue.length := by
  generalize hq : c.queue = queue
  induction queue generalizing c
  case nil => exact ⟨[], c, .nil, rfl, rfl⟩
  case cons pending queue ih =>
    obtain ⟨labels, c', hrun, hr, hl⟩ := @ih { c with
      queue := queue
      released := c.released ++ [pending.permit] } hi rfl
    refine ⟨.received pending.permit.ticket :: labels, c', .cons (.receive hi hq) hrun, ?_, ?_⟩
    · rw [tickets, map_cons, ← tickets, ← hr]
      rfl
    · rw [length_cons, length_cons, hl]

-- A command that was reserved before a discard is not received after it. What is put into the queue
-- after the next resume, and before another discard or the end, is received in order: what is
-- missing is received by as many calls as there are commands in the queue.
theorem discarded_stay_discarded {c₁ c₂ c₃ : Config} {l₁ l₂ : List Label}
    (h₁ : Run .initial l₁ c₁) (hd : Step c₁ .discard c₂) (h₂ : Run c₂ l₂ c₃) :
    (∀ t, .reserved t ∈ l₁ → .received t ∉ l₂) ∧
    ∀ {c₄ c₅ : Config} {l₃ : List Label}, .resumed ∉ l₂ → Step c₃ .resumed c₄ → Run c₄ l₃ c₅ →
      .discard ∉ l₃ → .stopped ∉ l₃ →
      ∃ l₄ c₆, Run c₅ l₄ c₆ ∧ l₄.length = c₅.queue.length ∧
        enqueued l₃ = received l₃ ++ received l₄ := by
  have hk : Known ([] ++ l₁) c₁ :=
    h₁.relation (G := fun _ => True) (fun _ h hk => h.known hk) (fun _ _ => trivial)
      ⟨nofun, nofun⟩
  have hs₁ : Suspends c₁ :=
    h₁.invariant (P := Suspends) Step.suspends ⟨nofun, nofun⟩
  refine ⟨fun t ht hr => ?_, ?_⟩
  · have hlt := hk.tickets t ht
    have hle := h₂.label (G := fun _ => True) (Q := fun a => ∀ t, a = .received t → c₁.nextTicket ≤ t)
      (fun _ h hf => ⟨h.fenced hf, fun t ht => by subst ht; exact h.received_fenced hf⟩)
      (fun _ _ => trivial) (hd.fence hk) _ hr t rfl
    omega
  · intro c₄ c₅ l₃ hnr h₄ h₅ hnd hns
    have hsus : c₃.state.suspended :=
      h₂.invariant_of (P := fun c => c.state.suspended) (G := fun a => a ≠ .resumed)
        Step.suspended (fun a ha => ne_of_mem_of_not_mem ha hnr) (by cases hd; rfl)
    have hs₃ := h₂.invariant (P := Suspends) Step.suspends (hd.suspends hs₁)
    have ho : InOrder [] c₄ := by
      cases h₄
      case resume hi =>
        refine ⟨hi, ?_⟩
        have hq := hs₃.empty (by rw [hi]; decide) hsus
        simp [hq, enqueued, received, tickets]
    have ho₅ : InOrder ([] ++ l₃) c₅ :=
      h₅.relation Step.inOrder
        (fun a ha => ⟨ne_of_mem_of_not_mem ha hnd, ne_of_mem_of_not_mem ha hns⟩) ho
    obtain ⟨l₄, c₆, hrun, hr, hl⟩ := receive_all ho₅.consumer
    exact ⟨l₄, c₆, hrun, hl, hr ▸ ho₅.order⟩

namespace Sample

def typed : Command :=
  .tmuxPaneInput ['%', '0'] [108, 115]

def waiting : Config :=
  ⟨⟨2, 1, 2, false, false, 0, false, []⟩, 1, [⟨typed, ⟨0, 2, 0⟩⟩], [], [], .idle⟩

def discarding : Config :=
  { waiting with state := ⟨2, 1, 2, false, true, 1, false, []⟩, consumer := .draining }

def refused : Config :=
  { discarding with reserved := [], released := [⟨0, 2, 0⟩], consumer := .idle }

theorem run_waiting : Run .initial [.reserved 0] waiting :=
  .cons (@Step.reserve .initial typed _ _ rfl rfl rfl) .nil

theorem run_refused : Run discarding [.drained, .refused 0] refused :=
  .cons (.drained rfl rfl)
    (.cons (@Step.refuse _ [] ⟨typed, ⟨0, 2, 0⟩⟩ [] rfl (by decide)) .nil)

end Sample

-- A late sender is refused after the discard, and the next one is received after the resume.
theorem discarded_stay_discarded_late :
    (.received 0 ∉ [Label.drained, .refused 0]) ∧
      ∃ l : List Label, l.length = 1 ∧ received l = [1] := by
  obtain ⟨hlate, hnext⟩ := discarded_stay_discarded Sample.run_waiting
    (show Step _ _ Sample.discarding from .discard rfl) Sample.run_refused
  refine ⟨hlate 0 (by simp), ?_⟩
  obtain ⟨l, -, -, hl, he⟩ := hnext (by simp) (.resume rfl)
    (.cons (@Step.reserve _ Sample.typed _ _ rfl rfl rfl)
      (.cons (@Step.enqueue _ [] ⟨Sample.typed, ⟨1, 2, 1⟩⟩ [] rfl rfl (by decide)) .nil))
    (by simp) (by simp)
  exact ⟨l, hl, he.symm⟩

end NyaTerm.Tmux.Mailbox
