import Mathlib.Data.List.Basic
import Mathlib.Logic.Function.Basic
import Mathlib.Tactic.Basic

-- Programs that talk to a world they share with others. A call names what is asked for; the world
-- answers with an error or with a value of the type that belongs to the call.
inductive Program (ε : Type) {C : Type} (R : C → Type) (α : Type) : Type
  | done (result : Except ε α)
  | call (c : C) (next : Except ε (R c) → Program ε R α)

namespace Program

variable {ε C : Type} {R : C → Type} {α : Type}

def bind : Program ε R α → (α → Program ε R β) → Program ε R β
  | done (.ok a), f => f a
  | done (.error e), _ => done (.error e)
  | call c k, f => call c fun x => (k x).bind f

instance : Monad (Program ε R) where
  pure a := done (.ok a)
  bind := bind

def fail (e : ε) : Program ε R α :=
  done (.error e)

def perform (c : C) : Program ε R (R c) :=
  call c done

-- A failure becomes a value that the program can look at.
def attempt : Program ε R α → Program ε R (Except ε α)
  | done r => done (.ok r)
  | call c k => call c fun x => (k x).attempt

-- A part that is left out unless the condition holds.
def when (p : Program ε R Unit) (b : Bool) : Program ε R Unit :=
  if b then p else pure ()

-- Every call is replaced by a program that answers it.
def translate (f : (c : C) → Program ε R (R c)) : Program ε R α → Program ε R α
  | done r => done r
  | call c k => (f c).attempt.bind fun x => (k x).translate f

-- A call together with its answer.
abbrev Event (ε : Type) {C : Type} (R : C → Type) := (c : C) × Except ε (R c)

abbrev Trace (ε : Type) {C : Type} (R : C → Type) := List (Event ε R)

-- This call was answered by this value.
def Got (t : Trace ε R) (c : C) (x : R c) : Prop :=
  (⟨c, .ok x⟩ : Event ε R) ∈ t

-- The program can get all of these answers to its calls, and then it ends with this result.
inductive Runs : Program ε R α → Trace ε R → Except ε α → Prop
  | done {r} : Runs (done r) [] r
  | call {c k x t r} : Runs (k x) t r → Runs (call c k) (⟨c, x⟩ :: t) r

-- The program can get all of these answers to its calls, and then it makes this call.
inductive Asks : Program ε R α → Trace ε R → C → Prop
  | here {c k} : Asks (call c k) [] c
  | there {c k x t d} : Asks (k x) t d → Asks (call c k) (⟨c, x⟩ :: t) d

section Rules

theorem got_append : Got (t₁ ++ t₂) c x ↔ Got t₁ c x ∨ Got t₂ c x :=
  List.mem_append

theorem Got.left (h : Got t₁ c x) : Got (t₁ ++ t₂) c x :=
  got_append.mpr (.inl h)

theorem Got.right (h : Got t₂ c x) : Got (t₁ ++ t₂) c x :=
  got_append.mpr (.inr h)

theorem Got.mono (h : Got t c x) (hu : t ⊆ u) : Got u c x :=
  hu h

theorem got_cons {x : R c} {y : Except ε (R d)} :
    Got (⟨d, y⟩ :: t) c x ↔ (⟨d, y⟩ : Event ε R) = ⟨c, .ok x⟩ ∨ Got t c x := by
  simp [Got, eq_comm]

@[simp]
theorem not_got_nil : ¬ Got ([] : Trace ε R) c x := by
  simp [Got]

variable {f : α → Program ε R β}

theorem runs_done : Runs (.done s : Program ε R α) t r ↔ t = [] ∧ r = s := by
  constructor
  case mp => rintro ⟨⟩; exact ⟨rfl, rfl⟩
  case mpr => rintro ⟨rfl, rfl⟩; exact .done

theorem runs_pure {r} : Runs (pure a : Program ε R α) t r ↔ t = [] ∧ r = .ok a :=
  runs_done

theorem runs_pure_ok : Runs (pure a : Program ε R α) t (.ok b) ↔ t = [] ∧ b = a := by
  rw [runs_pure, Except.ok.injEq]

theorem runs_fail {r} : Runs (fail e : Program ε R α) t r ↔ t = [] ∧ r = .error e :=
  runs_done

theorem runs_perform {r} : Runs (perform c : Program ε R _) t r ↔ t = [⟨c, r⟩] := by
  constructor
  case mp =>
    rintro (_ | ⟨⟨⟩⟩)
    rfl
  case mpr => rintro rfl; exact .call .done

theorem runs_bind {r : Except ε β} : Runs (p >>= f) t r ↔
    (∃ e, r = .error e ∧ Runs p t (.error e)) ∨
      ∃ a t₁ t₂, t = t₁ ++ t₂ ∧ Runs p t₁ (.ok a) ∧ Runs (f a) t₂ r := by
  change Runs (p.bind f) t r ↔ _
  induction p generalizing t
  case done s =>
    cases s <;> simp [bind, runs_done, and_comm]
  case call c k hi =>
    constructor
    case mp =>
      rintro (_ | ⟨h⟩)
      rcases (hi _).mp h with ⟨e, rfl, h₁⟩ | ⟨a, t₁, t₂, rfl, h₁, h₂⟩
      · exact .inl ⟨e, rfl, .call h₁⟩
      · exact .inr ⟨a, _ :: t₁, t₂, rfl, .call h₁, h₂⟩
    case mpr =>
      rintro (⟨e, rfl, _ | ⟨h⟩⟩ | ⟨a, _, t₂, rfl, _ | ⟨h⟩, h'⟩)
      · exact .call ((hi _).mpr (.inl ⟨e, rfl, h⟩))
      · exact .call ((hi _).mpr (.inr ⟨a, _, t₂, rfl, h, h'⟩))

theorem runs_bind_ok : Runs (p >>= f) t (.ok b) ↔
    ∃ a t₁ t₂, t = t₁ ++ t₂ ∧ Runs p t₁ (.ok a) ∧ Runs (f a) t₂ (.ok b) := by
  simp [runs_bind]

theorem runs_perform_bind {f : R c → Program ε R β} {r : Except ε β} :
    Runs (perform c >>= f) t r ↔ (∃ e, r = .error e ∧ t = [⟨c, .error e⟩]) ∨
      ∃ x t', t = ⟨c, .ok x⟩ :: t' ∧ Runs (f x) t' r := by
  simp only [runs_bind, runs_perform]
  constructor
  case mp =>
    rintro (h | ⟨x, _, t', rfl, rfl, h⟩)
    · exact .inl h
    · exact .inr ⟨x, t', rfl, h⟩
  case mpr =>
    rintro (h | ⟨x, t', rfl, h⟩)
    · exact .inl h
    · exact .inr ⟨x, _, t', rfl, rfl, h⟩

theorem runs_perform_bind_ok {f : R c → Program ε R β} :
    Runs (perform c >>= f) t (.ok b) ↔ ∃ x t', t = ⟨c, .ok x⟩ :: t' ∧ Runs (f x) t' (.ok b) := by
  simp [runs_perform_bind]

theorem runs_done_bind_ok :
    Runs (.done r >>= f) t (.ok b) ↔ ∃ a, r = .ok a ∧ Runs (f a) t (.ok b) := by
  cases r <;> simp [runs_bind_ok, runs_done]

theorem runs_bind_done_ok {f : α → Except ε β} :
    Runs (p >>= fun a => .done (f a)) t (.ok b) ↔ ∃ a, Runs p t (.ok a) ∧ f a = .ok b := by
  simp only [runs_bind_ok, runs_done]
  constructor
  case mp =>
    rintro ⟨a, t, _, rfl, h, rfl, hf⟩
    exact ⟨a, by simpa using h, hf.symm⟩
  case mpr =>
    rintro ⟨a, h, hf⟩
    exact ⟨a, t, [], by simp, h, rfl, hf.symm⟩

theorem runs_bind_pure_ok {f : α → β} :
    Runs (p >>= fun a => pure (f a)) t (.ok b) ↔ ∃ a, Runs p t (.ok a) ∧ f a = b := by
  refine (runs_bind_done_ok (f := fun a => .ok (f a))).trans ?_
  simp

theorem runs_attempt : Runs p.attempt t s ↔ ∃ r, s = .ok r ∧ Runs p t r := by
  induction p generalizing t
  case done r => simp [attempt, runs_done, and_comm]
  case call c k hi =>
    constructor
    case mp =>
      rintro (_ | ⟨h⟩)
      obtain ⟨r, rfl, h₁⟩ := (hi _).mp h
      exact ⟨r, rfl, .call h₁⟩
    case mpr =>
      rintro ⟨r, rfl, _ | ⟨h⟩⟩
      exact .call ((hi _).mpr ⟨r, rfl, h⟩)

theorem runs_attempt_ok : Runs p.attempt t (.ok r) ↔ Runs p t r := by
  simp [runs_attempt]

theorem runs_when_ok {b : Bool} {p : Program ε R Unit} :
    Runs (p.when b) t (.ok ()) ↔ (b = false ∧ t = []) ∨ (b = true ∧ Runs p t (.ok ())) := by
  cases b <;> simp [when, runs_pure]

theorem not_asks_done : ¬ Asks (.done r : Program ε R α) t c := nofun

theorem not_asks_pure : ¬ Asks (pure a : Program ε R α) t c := nofun

theorem not_asks_fail : ¬ Asks (fail e : Program ε R α) t c := nofun

theorem asks_perform : Asks (perform c : Program ε R _) t d ↔ t = [] ∧ d = c := by
  constructor
  case mp =>
    rintro (_ | ⟨⟨⟩⟩)
    exact ⟨rfl, rfl⟩
  case mpr => rintro ⟨rfl, rfl⟩; exact .here

theorem asks_bind : Asks (p >>= f) t c ↔
    Asks p t c ∨ ∃ a t₁ t₂, t = t₁ ++ t₂ ∧ Runs p t₁ (.ok a) ∧ Asks (f a) t₂ c := by
  change Asks (p.bind f) t c ↔ _
  induction p generalizing t
  case done s =>
    cases s <;> simp [bind, runs_done, not_asks_done]
  case call d k hi =>
    constructor
    case mp =>
      rintro (_ | ⟨h⟩)
      · exact .inl .here
      · rcases (hi _).mp h with h₁ | ⟨a, t₁, t₂, rfl, h₁, h₂⟩
        · exact .inl (.there h₁)
        · exact .inr ⟨a, _ :: t₁, t₂, rfl, .call h₁, h₂⟩
    case mpr =>
      rintro ((_ | ⟨h⟩) | ⟨a, _, t₂, rfl, _ | ⟨h⟩, h'⟩)
      · exact .here
      · exact .there ((hi _).mpr (.inl h))
      · exact .there ((hi _).mpr (.inr ⟨a, _, t₂, rfl, h, h'⟩))

theorem asks_perform_bind {f : R c → Program ε R β} : Asks (perform c >>= f) t d ↔
    (t = [] ∧ d = c) ∨ ∃ x t', t = ⟨c, .ok x⟩ :: t' ∧ Asks (f x) t' d := by
  simp only [asks_bind, runs_perform, asks_perform]
  constructor
  case mp =>
    rintro (h | ⟨x, _, t', rfl, rfl, h⟩)
    · exact .inl h
    · exact .inr ⟨x, t', rfl, h⟩
  case mpr =>
    rintro (h | ⟨x, t', rfl, h⟩)
    · exact .inl h
    · exact .inr ⟨x, _, t', rfl, rfl, h⟩

theorem asks_attempt : Asks p.attempt t c ↔ Asks p t c := by
  induction p generalizing t
  case done r => exact ⟨nofun, nofun⟩
  case call d k hi =>
    constructor
    · rintro (_ | ⟨h⟩)
      · exact .here
      · exact .there ((hi _).mp h)
    · rintro (_ | ⟨h⟩)
      · exact .here
      · exact .there ((hi _).mpr h)

theorem Runs.asks {r} (h : Runs p t r) {e : Event ε R}
    (ht : t = t₁ ++ e :: t₂) : Asks p t₁ e.1 := by
  induction h generalizing t₁
  case done => simp at ht
  case call c k x t r h hi =>
    cases t₁
    case nil =>
      have ⟨rfl, rfl⟩ := List.cons.inj ht
      exact .here
    case cons e' t₁ =>
      have ⟨rfl, h₁⟩ := List.cons.inj ht
      exact .there (hi h₁)

theorem Asks.asks (h : Asks p t c) {e : Event ε R} (ht : t = t₁ ++ e :: t₂) :
    Asks p t₁ e.1 := by
  induction h generalizing t₁
  case here => simp at ht
  case there c k x t d h hi =>
    cases t₁
    case nil =>
      have ⟨rfl, rfl⟩ := List.cons.inj ht
      exact .here
    case cons e' t₁ =>
      have ⟨rfl, h₁⟩ := List.cons.inj ht
      exact .there (hi h₁)

end Rules

-- Whatever the answers are, the program makes no other calls than these.
def Only (P : C → Prop) : Program ε R α → Prop
  | done _ => True
  | call c k => P c ∧ ∀ x, (k x).Only P

section Only

variable {P : C → Prop} {p : Program ε R α} {f : α → Program ε R β}

@[simp]
theorem only_done : (.done r : Program ε R α).Only P := trivial

@[simp]
theorem only_pure : (pure a : Program ε R α).Only P := trivial

@[simp]
theorem only_fail : (fail e : Program ε R α).Only P := trivial

@[simp]
theorem only_perform : (perform c : Program ε R _).Only P ↔ P c := by
  simp [perform, Only]

theorem only_iff_asks : p.Only P ↔ ∀ t c, Asks p t c → P c := by
  constructor
  case mp =>
    intro hp t c h
    induction h
    case here => exact hp.1
    case there hi => exact hi (hp.2 _)
  case mpr =>
    intro h
    induction p
    case done => trivial
    case call c k hi => exact ⟨h [] c .here, fun x => hi x fun t d hd => h _ d (.there hd)⟩

@[simp]
theorem only_bind : (p >>= f).Only P ↔
    p.Only P ∧ ∀ t a, Runs p t (.ok a) → (f a).Only P := by
  simp only [only_iff_asks, asks_bind]
  constructor
  case mp =>
    exact fun h => ⟨fun t c hc => h t c (.inl hc), fun t a ha u c hc =>
      h _ c (.inr ⟨a, t, u, rfl, ha, hc⟩)⟩
  case mpr =>
    rintro ⟨h, hf⟩ t c (hc | ⟨a, t, u, rfl, ha, hc⟩)
    · exact h t c hc
    · exact hf t a ha u c hc

@[simp]
theorem only_attempt : p.attempt.Only P ↔ p.Only P := by
  simp [only_iff_asks, asks_attempt]

@[simp]
theorem only_ite [Decidable b] :
    (if b then p else q).Only P ↔ (b → p.Only P) ∧ (¬ b → q.Only P) := by
  split <;> simp_all

@[simp]
theorem only_when {p : Program ε R Unit} : (p.when b).Only P ↔ (b = true → p.Only P) := by
  simp [when]

section

variable (hp : p.Only P)
include hp

theorem Only.asks (h : Asks p t c) : P c :=
  only_iff_asks.mp hp t c h

theorem Only.mono (h : ∀ c, P c → Q c) : p.Only Q :=
  only_iff_asks.mpr fun _ c hc => h c (hp.asks hc)

theorem Only.asks_bind (h : Asks (p >>= f) t c) (hc : ¬ P c) :
    ∃ a t₁ t₂, t = t₁ ++ t₂ ∧ Runs p t₁ (.ok a) ∧ Asks (f a) t₂ c := by
  rcases Program.asks_bind.mp h with h | h
  · exact absurd (hp.asks h) hc
  · exact h

omit hp in
theorem asks_perform_bind_ne {f : R d → Program ε R β} (h : Asks (perform d >>= f) t c)
    (hc : c ≠ d) : ∃ x t', t = ⟨d, .ok x⟩ :: t' ∧ Asks (f x) t' c := by
  rcases asks_perform_bind.mp h with ⟨_, rfl⟩ | h
  · exact absurd rfl hc
  · exact h

theorem Only.runs {r} (h : Runs p t r) : ∀ e ∈ t, P e.1 := by
  induction h
  case done => simp
  case call hi =>
    simp only [List.forall_mem_cons]
    exact ⟨hp.1, hi (hp.2 _)⟩

end

end Only

-- After these events, whatever the answers are, each call of the program is allowed by what has
-- happened up to then.
def Obeys (P : Trace ε R → C → Prop) (s : Trace ε R) (p : Program ε R α) : Prop :=
  ∀ t c, Asks p t c → P (s ++ t) c

section Obeys

variable {p : Program ε R α} {f : α → Program ε R β}

theorem obeys_done : (.done r : Program ε R α).Obeys P s :=
  fun _ _ h => absurd h not_asks_done

theorem obeys_pure : (pure a : Program ε R α).Obeys P s := obeys_done

theorem obeys_fail : (fail e : Program ε R α).Obeys P s := obeys_done

theorem obeys_perform (h : P s c) : (perform c : Program ε R _).Obeys P s := by
  intro t d hd
  obtain ⟨rfl, rfl⟩ := asks_perform.mp hd
  rwa [List.append_nil]

theorem obeys_bind (hp : p.Obeys P s) (hf : ∀ t a, Runs p t (.ok a) → (f a).Obeys P (s ++ t)) :
    (p >>= f).Obeys P s := by
  intro t c hc
  rcases asks_bind.mp hc with hc | ⟨a, t₁, t₂, rfl, h₁, h₂⟩
  · exact hp t c hc
  · rw [← List.append_assoc]
    exact hf t₁ a h₁ t₂ c h₂

theorem obeys_done_bind (hf : ∀ a, r = .ok a → (f a).Obeys P s) :
    (.done r >>= f).Obeys P s := by
  refine obeys_bind obeys_done fun t a h => ?_
  obtain ⟨rfl, rfl⟩ := runs_done.mp h
  rw [List.append_nil]
  exact hf a rfl

theorem obeys_perform_bind {f : R c → Program ε R β} (h : P s c)
    (hf : ∀ x, (f x).Obeys P (s ++ [⟨c, .ok x⟩])) : (perform c >>= f).Obeys P s := by
  refine obeys_bind (obeys_perform h) fun t x hx => ?_
  obtain rfl := runs_perform.mp hx
  exact hf x

theorem obeys_attempt (hp : p.Obeys P s) : p.attempt.Obeys P s :=
  fun t c hc => hp t c (asks_attempt.mp hc)

theorem obeys_ite [Decidable b] (hp : b → p.Obeys P s) (hq : ¬ b → q.Obeys P s) :
    (if b then p else q).Obeys P s := by
  split
  · exact hp ‹_›
  · exact hq ‹_›

theorem obeys_when {p : Program ε R Unit} (hp : b = true → p.Obeys P s) : (p.when b).Obeys P s :=
  obeys_ite hp fun _ => obeys_pure

theorem Only.obeys (hp : p.Only Q) (h : ∀ t c, Q c → P t c) : p.Obeys P s :=
  fun t c hc => h (s ++ t) c (hp.asks hc)

end Obeys

-- What the calls of a program have become after a translation.
inductive Translates (f : (c : C) → Program ε R (R c)) : Trace ε R → Trace ε R → Prop
  | nil : Translates f [] []
  | cons {c x u t v} (hx : Runs (f c) u x) (ht : Translates f t v) :
    Translates f (⟨c, x⟩ :: t) (u ++ v)

theorem Translates.got (h : Translates f t u) (hf : ∀ {c u x}, Runs (f c) u (.ok x) → Got u c x)
    (hg : Got t c x) : Got u c x := by
  induction h
  case nil => exact hg
  case cons hx _ hi =>
    rcases got_cons.mp hg with hg | hg
    · cases hg
      exact (hf hx).left
    · exact (hi hg).right

-- A call that is made after a translation belongs to a call that the program makes.
theorem asks_translate (h : Asks (p.translate f) t c) :
    ∃ s d u v, t = u ++ v ∧ Asks p s d ∧ Translates f s u ∧
      Asks (f d) v c := by
  induction p generalizing t
  case done => exact absurd h not_asks_done
  case call d k hi =>
    rcases asks_bind.mp h with h | ⟨x, u, t, rfl, h₁, h₂⟩
    · exact ⟨[], d, [], t, rfl, .here, .nil, asks_attempt.mp h⟩
    · have ⟨_, ho, h₃⟩ := runs_attempt.mp h₁
      obtain rfl := Except.ok.inj ho
      obtain ⟨s, e, v, w, rfl, hs, hv, hw⟩ := hi x h₂
      exact ⟨_ :: s, e, u ++ v, w, by simp, .there hs, .cons h₃ hv, hw⟩

end Program
