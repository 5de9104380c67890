import Mathlib.Logic.Relation
import NyaTerm.Lib.Program

-- Actors that run programs against one world. Each call is answered at once, and between two calls
-- of an actor all the others can make theirs.
structure System (ε : Type) {C : Type} (R : C → Type) where
  World : Type
  Actor : Type
  Op : Type
  Result : Op → Type
  program : (op : Op) → Program ε R (Result op)
  -- an actor may begin such an operation
  Starts : World → Actor → Op → Prop
  -- a call of an actor may be answered like this, and this is what it leaves behind
  Answers : World → Actor → (c : C) → Except ε (R c) → World → Prop
  -- what happens apart from the operations
  Moves : World → World → Prop

namespace System

open Function

open Program Relation

variable {C : Type} {R : C → Type} (S : System ε R)

-- An operation under way, with the answers it has got so far.
structure Session where
  op : S.Op
  trace : Trace ε R

structure Config where
  world : S.World
  sessions : S.Actor → Option S.Session

def Config.initial (w : S.World) : S.Config :=
  ⟨w, fun _ => none⟩

variable {S} [DecidableEq S.Actor]

-- An actor has at most one operation under way. It can stop anywhere: at its end or in a crash.
inductive Step (s : S.Config) : S.Config → Prop
  | start {a op} (hn : s.sessions a = none) (hs : S.Starts s.world a op) :
    Step s ⟨s.world, Function.update s.sessions a (some ⟨op, []⟩)⟩
  | call {a op t c x w} (hs : s.sessions a = some ⟨op, t⟩) (hc : Asks (S.program op) t c)
    (hw : S.Answers s.world a c x w) :
    Step s ⟨w, Function.update s.sessions a (some ⟨op, t ++ [⟨c, x⟩]⟩)⟩
  | stop (a) : Step s ⟨s.world, Function.update s.sessions a none⟩
  | move {w} (hw : S.Moves s.world w) : Step s ⟨w, s.sessions⟩

inductive Reachable (init : S.World → Prop) : S.Config → Prop
  | init {w} (hw : init w) : Reachable init (.initial S w)
  | step {s s'} (hr : Reachable init s) (hs : Step s s') : Reachable init s'

-- An invariant of the world, together with one that each session has beside it.
structure Keeps (init : S.World → Prop) (I : S.World → Prop)
    (J : S.World → S.Actor → S.Session → Prop) : Prop where
  init {w} : init w → I w
  start {w a op} : I w → S.Starts w a op → J w a ⟨op, []⟩
  call {w a op t c x w'} : I w → J w a ⟨op, t⟩ → Asks (S.program op) t c → S.Answers w a c x w' →
    I w' ∧ J w' a ⟨op, t ++ [⟨c, x⟩]⟩
  other {w a op t c x w' b s} : I w → J w a ⟨op, t⟩ → Asks (S.program op) t c →
    S.Answers w a c x w' → b ≠ a → J w b s → J w' b s
  move {w w'} : I w → S.Moves w w' → I w' ∧ ∀ a s, J w a s → J w' a s

theorem update_eq_some [DecidableEq A] {f : A → Option B} {a b : A} {x : Option B} {y : B} :
    update f a x b = some y ↔ (b = a ∧ x = some y) ∨ (b ≠ a ∧ f b = some y) := by
  by_cases h : b = a
  · subst h
    simp
  · simp [h]

theorem Keeps.reachable {init : S.World → Prop} (h : Keeps init I J) (hr : Reachable init s) :
    I s.world ∧ ∀ a session, s.sessions a = some session → J s.world a session := by
  induction hr
  case init w hw => exact ⟨h.init hw, nofun⟩
  case step s s' _ hs hi =>
    have ⟨hw, hj⟩ := hi
    cases hs
    case start a op _ hst =>
      refine ⟨hw, fun b session hb => ?_⟩
      rcases update_eq_some.mp hb with ⟨rfl, ⟨⟩⟩ | ⟨_, hb⟩
      · exact h.start hw hst
      · exact hj b session hb
    case call a op t c x w hs hc ha =>
      have ⟨hw', ht⟩ := h.call hw (hj a _ hs) hc ha
      refine ⟨hw', fun b session hb => ?_⟩
      rcases update_eq_some.mp hb with ⟨rfl, ⟨⟩⟩ | ⟨hab, hb⟩
      · exact ht
      · exact h.other hw (hj a _ hs) hc ha hab (hj b session hb)
    case stop a =>
      refine ⟨hw, fun b session hb => ?_⟩
      rcases update_eq_some.mp hb with ⟨rfl, ⟨⟩⟩ | ⟨_, hb⟩
      exact hj b session hb
    case move w hm =>
      have ⟨hw', hj'⟩ := h.move hw hm
      exact ⟨hw', fun b session hb => hj' b session (hj b session hb)⟩

-- What the world can go through while one actor gets all of these answers.
inductive Evolves (a : S.Actor) : S.World → Trace ε R → S.World → Prop
  | nil {w} : Evolves a w [] w
  | cons {w c x w' t w''} (hc : S.Answers w a c x w') (ht : Evolves a w' t w'') :
    Evolves a w (⟨c, x⟩ :: t) w''

omit [DecidableEq S.Actor] in
theorem Evolves.append {a : S.Actor} {w w' w'' : S.World} {t u : Trace ε R} (h : Evolves a w t w')
    (hu : Evolves a w' u w'') : Evolves a w (t ++ u) w'' := by
  induction h
  case nil => exact hu
  case cons hc _ hi => exact .cons hc (hi hu)

theorem Reachable.steps {init : S.World → Prop} (hr : Reachable init s)
    (hs : ReflTransGen Step s s') : Reachable init s' := by
  induction hs
  case refl => exact hr
  case tail hs hi => exact hi.step hs

section Steps

variable {w w' : S.World} {a : S.Actor} {op : S.Op} {t : Trace ε R}
  {sessions : S.Actor → Option S.Session}

theorem step_call (hc : Asks (S.program op) t c) (hx : S.Answers w a c x w') :
    Step ⟨w, update sessions a (some ⟨op, t⟩)⟩
      ⟨w', update sessions a (some ⟨op, t ++ [⟨c, x⟩]⟩)⟩ := by
  have hs := Step.call (s := ⟨w, update sessions a (some ⟨op, t⟩)⟩)
    (update_self ..) hc hx
  rwa [update_idem] at hs

theorem steps_calls (hu : Evolves a w u w')
    (hc : ∀ u₁ e u₂, u = u₁ ++ e :: u₂ → Asks (S.program op) (t ++ u₁) e.1) :
    ReflTransGen Step ⟨w, update sessions a (some ⟨op, t⟩)⟩
      ⟨w', update sessions a (some ⟨op, t ++ u⟩)⟩ := by
  induction hu generalizing t
  case nil => simpa using ReflTransGen.refl
  case cons w c x w' u w'' hw _ hi =>
    refine .head (step_call (by simpa using hc [] ⟨c, x⟩ u rfl) hw) ?_
    rw [List.append_cons t _ u]
    refine hi fun u₁ e u₂ he => ?_
    simpa using hc (⟨c, x⟩ :: u₁) e u₂ (by simp [he])

section

variable (hn : sessions a = none) (hs : S.Starts w a op) (ht : Evolves a w t w')
include hn hs ht

theorem steps_asks
    (hc : Asks (S.program op) t c) :
    ReflTransGen Step ⟨w, sessions⟩ ⟨w', update sessions a (some ⟨op, t⟩)⟩ :=
  .head (.start hn hs) (steps_calls ht fun _ _ _ he => hc.asks he)

theorem steps_runs (hp : Runs (S.program op) t r) :
    ReflTransGen Step ⟨w, sessions⟩ ⟨w', update sessions a (some ⟨op, t⟩)⟩ :=
  .head (.start hn hs) (steps_calls ht fun _ _ _ he => hp.asks he)

end

end Steps

end System
