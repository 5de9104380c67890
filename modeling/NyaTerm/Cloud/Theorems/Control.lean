import NyaTerm.Cloud.Control
import NyaTerm.Cloud.Theorems.Concurrency

open Program System

namespace NyaTerm

open CloudSync

-- What an event can be before the operation is decided, and after it.
def ControlEvent.Undecided : ControlEvent → Prop
  | .checkpoint result => result = .ok ()
  | _ => False

def ControlEvent.Stopped : ControlEvent → Prop
  | .cancel result => result = .stopping
  | .checkpoint result => result = .error .cancelled
  | .beginCommit result => result = .error .cancelled

def ControlEvent.Committing : ControlEvent → Prop
  | .cancel result => result = .finishingCommit
  | .checkpoint result => result = .ok ()
  | .beginCommit result => result = .ok ()

namespace OperationControl

-- The first cancellation or commit decides, and everything later agrees with it.
inductive Coherent : OperationControl → Prop
  | preparing {log} (h : ∀ e ∈ log, ControlEvent.Undecided e) : Coherent ⟨.preparing, log⟩
  | cancelled {log later} (h : ∀ e ∈ log, ControlEvent.Undecided e)
    (hl : ∀ e ∈ later, ControlEvent.Stopped e) :
    Coherent ⟨.cancelled, log ++ .cancel .stopping :: later⟩
  | committing {log later} (h : ∀ e ∈ log, ControlEvent.Undecided e)
    (hl : ∀ e ∈ later, ControlEvent.Committing e) :
    Coherent ⟨.committing, log ++ .beginCommit (.ok ()) :: later⟩

variable {control : OperationControl}

theorem forall_mem_concat {P : ControlEvent → Prop} {log : List ControlEvent} (h : ∀ e ∈ log, P e)
    (he : P event) : ∀ e ∈ log ++ [event], P e :=
  List.forall_mem_append.mpr ⟨h, List.forall_mem_singleton.mpr he⟩

theorem Coherent.requestCancel (h : control.Coherent) : control.requestCancel.Coherent := by
  cases h
  case preparing h => exact .cancelled h fun _ he => absurd he List.not_mem_nil
  case cancelled h hl =>
    have hl' := forall_mem_concat hl (show ControlEvent.Stopped (.cancel .stopping) from rfl)
    simpa [OperationControl.requestCancel] using .cancelled h hl'
  case committing h hl =>
    have hl' := forall_mem_concat hl
      (show ControlEvent.Committing (.cancel .finishingCommit) from rfl)
    simpa [OperationControl.requestCancel] using .committing h hl'

variable [SnapshotFormat]

theorem Coherent.answers (h : control.Coherent) (ha : control.Answers c x next) :
    next.Coherent := by
  cases ha
  case other => exact h
  case checkpoint =>
    cases h
    case preparing h =>
      exact .preparing (forall_mem_concat h (show ControlEvent.Undecided (.checkpoint _) from rfl))
    case cancelled h hl =>
      have hl' := forall_mem_concat hl
        (show ControlEvent.Stopped (.checkpoint (.error .cancelled)) from rfl)
      simpa using .cancelled h hl'
    case committing h hl =>
      have hl' := forall_mem_concat hl (show ControlEvent.Committing (.checkpoint (.ok ())) from rfl)
      simpa [OperationState.checkpoint] using .committing h hl'
  case beginCommit =>
    cases h
    case preparing h => exact .committing h fun _ he => absurd he List.not_mem_nil
    case cancelled h hl =>
      have hl' := forall_mem_concat hl
        (show ControlEvent.Stopped (.beginCommit (.error .cancelled)) from rfl)
      simpa using .cancelled h hl'
    case committing h hl =>
      have hl' := forall_mem_concat hl (show ControlEvent.Committing (.beginCommit (.ok ())) from rfl)
      simpa [OperationState.beginCommit] using .committing h hl'

theorem Answers.committing (ha : control.Answers c x next) (h : control.state = .committing) :
    next.state = .committing := by
  cases ha
  case beginCommit => simp [h, OperationState.beginCommit]
  all_goals exact h

theorem Answers.begun (ha : control.Answers .beginCommit x next) (hx : x = .ok ()) :
    next.state = .committing := by
  cases ha
  case beginCommit =>
    cases hs : control.state
    case cancelled => simp [hs, OperationState.beginCommit] at hx
    all_goals rfl
  case other h => exact absurd rfl h.2

theorem keeps_controlSystem : Keeps (S := controlSystem) (· = initial) Coherent
    fun control _ session => Got session.trace .beginCommit () → control.state = .committing where
  init := by
    rintro _ rfl
    exact .preparing fun _ he => absurd he List.not_mem_nil
  start _ _ h := absurd h not_got_nil
  call := by
    intro control a call t c x next hc hb _ ha
    refine ⟨hc.answers ha, fun hg => ?_⟩
    rcases got_append.mp hg with hg | hg
    · exact ha.committing (hb hg)
    · cases List.mem_singleton.mp hg
      exact ha.begun rfl
  other := by
    intro control a call t c x next b s hc _ _ ha hne
    exact absurd rfl hne
  move := by
    rintro control _ hc rfl
    refine ⟨hc.requestCancel, fun _ session hb hg => ?_⟩
    simp [requestCancel, hb hg, OperationState.requestCancel]

end OperationControl

section Controlled

variable [SnapshotFormat]

theorem runs_controlled (h : Runs (controlled c) t (.ok x)) : Got t c x := by
  cases c
  case readIfExists | listFiles | buildSnapshot =>
    obtain ⟨_, t, rfl, h₁⟩ := runs_perform_bind_ok.mp h
    obtain ⟨y, t, rfl, h₂⟩ := runs_perform_bind_ok.mp h₁
    obtain ⟨_, t, rfl, h₃⟩ := runs_perform_bind_ok.mp h₂
    have ⟨rfl, hx⟩ := runs_pure.mp h₃
    obtain rfl := Except.ok.inj hx
    exact .tail _ (.head _)
  case write | delete | createDir | fileCapacity | encodeSnapshot | decodeSnapshot | encodePointer |
      decodePointer | applyChecked | persistState =>
    obtain ⟨_, t, rfl, h₁⟩ := runs_perform_bind_ok.mp h
    obtain rfl := runs_perform.mp h₁
    exact .tail _ (.head _)
  all_goals
    obtain rfl := runs_perform.mp h
    exact .head _

-- A publication under control is one that the operation asks for, or it begins to commit first.
theorem asks_controlled (h : Asks (controlled d) t c) (hc : c.isPublication) :
    c = d ∧ (Got t .beginCommit () ∨ ∃ path bytes, d = .write path bytes) := by
  cases d
  case readIfExists | listFiles | buildSnapshot =>
    rcases asks_perform_bind.mp h with ⟨rfl, rfl⟩ | ⟨_, t, rfl, h₁⟩
    · cases hc
    rcases asks_perform_bind.mp h₁ with ⟨rfl, rfl⟩ | ⟨_, t, rfl, h₂⟩
    · cases hc
    rcases asks_perform_bind.mp h₂ with ⟨rfl, rfl⟩ | ⟨_, t, rfl, h₃⟩
    · cases hc
    · exact absurd h₃ not_asks_done
  case write path bytes =>
    rcases asks_perform_bind.mp h with ⟨rfl, rfl⟩ | ⟨_, t, rfl, h₁⟩
    · cases hc
    · obtain ⟨rfl, rfl⟩ := asks_perform.mp h₁
      exact ⟨rfl, .inr ⟨path, bytes, rfl⟩⟩
  case applyChecked | persistState =>
    rcases asks_perform_bind.mp h with ⟨rfl, rfl⟩ | ⟨_, t, rfl, h₁⟩
    · cases hc
    · have ⟨rfl, rfl⟩ := asks_perform.mp h₁
      exact ⟨rfl, .inl (.head _)⟩
  case delete | createDir | fileCapacity | encodeSnapshot | decodeSnapshot | encodePointer |
      decodePointer =>
    rcases asks_perform_bind.mp h with ⟨rfl, rfl⟩ | ⟨_, t, rfl, h₁⟩
    · cases hc
    · obtain ⟨rfl, rfl⟩ := asks_perform.mp h₁
      cases hc
  all_goals
    obtain ⟨rfl, rfl⟩ := asks_perform.mp h
    cases hc

theorem CloudSync.Permits.begun (h : Permits terms t c) (hc : c.isPublication)
    (hw : ∃ path bytes, c = .write path bytes) : Got t .beginCommit () := by
  cases h
  case staging h =>
    obtain ⟨path, bytes, rfl⟩ := hw
    cases path <;> first | exact absurd hc Bool.false_ne_true | exact absurd h Bool.false_ne_true
  case head hb _ | latest hb _ _ | current hb => exact hb
  all_goals
    obtain ⟨_, _, ⟨⟩⟩ := hw

theorem begun_of_publication {call : CloudCall}
    (h : Asks (call.program.translate controlled) t c) (hc : c.isPublication) :
    Got t .beginCommit () := by
  obtain ⟨s, d, u, v, rfl, hs, hu, hv⟩ := asks_translate h
  obtain ⟨rfl, hb | hw⟩ := asks_controlled hv hc
  · exact hb.right
  · have hb := (call.obeys_program s c hs).begun hc hw
    exact (hu.got runs_controlled hb).left

end Controlled

namespace OperationControl

theorem Coherent.not_both {control : OperationControl} (h : control.Coherent) :
    (.cancel .stopping ∈ control.log ↔ control.state = .cancelled) ∧
    (.beginCommit (.ok ()) ∈ control.log ↔ control.state = .committing) := by
  cases h
  case preparing log h =>
    refine ⟨⟨fun he => (h _ he).elim, nofun⟩, ⟨fun he => (h _ he).elim, nofun⟩⟩
  case cancelled log later h hl =>
    refine ⟨⟨fun _ => rfl, fun _ => by simp⟩, ⟨fun he => ?_, nofun⟩⟩
    rcases List.mem_append.mp he with he | he
    · exact (h _ he).elim
    · rcases List.mem_cons.mp he with he | he
      · cases he
      · cases hl _ he
  case committing log later h hl =>
    refine ⟨⟨fun he => ?_, nofun⟩, ⟨fun _ => rfl, fun _ => by simp⟩⟩
    rcases List.mem_append.mp he with he | he
    · exact (h _ he).elim
    · rcases List.mem_cons.mp he with he | he
      · cases he
      · cases hl _ he

theorem Coherent.after_commit {control : OperationControl} (h : control.Coherent)
    (he : control.log = earlier ++ .beginCommit (.ok ()) :: later) : ∀ e ∈ later, e.Committing := by
  have hs := h.not_both.2.mp (by simp [he])
  cases h
  case preparing | cancelled => cases hs
  case committing log after hb hl =>
    rcases List.append_eq_append_iff.mp he with ⟨as, rfl, ha⟩ | ⟨as, rfl, ha⟩
    · cases as
      case nil =>
        have ⟨_, rfl⟩ := List.cons.inj ha
        exact hl
      case cons a as =>
        obtain ⟨_, rfl⟩ := List.cons.inj ha
        exact fun e hm => hl e (by simp [hm])
    · -- the first commit is not among the events that decide nothing
      cases as
      case nil =>
        have ⟨_, rfl⟩ := List.cons.inj ha
        exact hl
      case cons a as =>
        have ⟨rfl, _⟩ := List.cons.inj ha
        exact (hb (.beginCommit (.ok ())) (by simp)).elim

theorem Coherent.decided {control : OperationControl} (h : control.Coherent)
    (hd : ∃ e ∈ control.log, (∃ result, e = .cancel result) ∨ ∃ result, e = .beginCommit result) :
    control.state ≠ .preparing := by
  obtain ⟨e, he, hd⟩ := hd
  cases h
  case preparing h =>
    have hu := h e he
    rcases hd with ⟨_, rfl⟩ | ⟨_, rfl⟩
    · exact hu.elim
    · exact hu.elim
  case cancelled | committing => exact OperationState.noConfusion

end OperationControl

-- An operation that was told to stop publishes nothing any more, one that has begun to commit is not
-- cancelled any more, and who asks for one of the two has exactly one of them happen.
theorem cancellation_is_exact [SnapshotFormat] {s : controlSystem.Config}
    (hr : Reachable (· = OperationControl.initial) s) :
    (.cancel .stopping ∈ s.world.log → ∀ a call t c, s.sessions a = some ⟨call, t⟩ →
      Asks (controlSystem.program call) t c → ¬ c.isPublication) ∧
    (∀ earlier later, s.world.log = earlier ++ .beginCommit (.ok ()) :: later →
      ∀ result, .checkpoint result ∈ later → result = .ok ()) ∧
    ((∃ e ∈ s.world.log, (∃ result, e = .cancel result) ∨ ∃ result, e = .beginCommit result) →
      Xor (.cancel .stopping ∈ s.world.log) (.beginCommit (.ok ()) ∈ s.world.log)) := by
  have ⟨hc, hs⟩ := OperationControl.keeps_controlSystem.reachable hr
  have ⟨hstop, hbegin⟩ := hc.not_both
  refine ⟨fun hcancel a call t c hsession hasks hp => ?_, fun earlier later he result hm => ?_, ?_⟩
  · have hcommit := hs a _ hsession (begun_of_publication hasks hp)
    rw [hstop.mp hcancel] at hcommit
    cases hcommit
  · exact hc.after_commit he _ hm
  · intro hd
    have hn := hc.decided hd
    rw [hstop, hbegin]
    revert hn
    cases s.world.state <;> simp

namespace SnapshotFormat.Sample

local instance controlled : SnapshotFormat := sample

def begun : CloudTrace :=
  [⟨.checkpoint, .ok ()⟩, ⟨.checkpoint, .ok ()⟩, ⟨.createDir .sync, .ok ()⟩]

-- A push that is told to stop after it has made a directory.
theorem cancellation_is_exact_sample : ∃ s : controlSystem.Config,
    s.sessions () = some ⟨calling "a" unsynced, begun⟩ ∧ .cancel .stopping ∈ s.world.log ∧
    (∀ t c, s.sessions () = some ⟨calling "a" unsynced, t⟩ →
      Asks (controlSystem.program (calling "a" unsynced)) t c → ¬ c.isPublication) ∧
    .beginCommit (.ok ()) ∉ s.world.log := by
  have hc : Asks (controlSystem.program (calling "a" unsynced)) begun .checkpoint :=
    .there (.there (.there .here))
  have he : Evolves (S := controlSystem) () .initial begun _ :=
    .cons .checkpoint (.cons .checkpoint (.cons (.other ⟨nofun, nofun⟩) .nil))
  have h₁ : Reachable (S := controlSystem) (· = .initial) _ :=
    .steps (.init rfl) (steps_asks rfl trivial he hc)
  have h₂ := h₁.step (.move rfl)
  have ⟨hstop, _, hone⟩ := cancellation_is_exact h₂
  have hm : ControlEvent.cancel .stopping ∈ [.checkpoint (.ok ()), .checkpoint (.ok ()), _] :=
    .tail _ (.tail _ (.head _))
  refine ⟨_, rfl, hm, hstop hm () _, ?_⟩
  rcases hone ⟨_, hm, .inl ⟨_, rfl⟩⟩ with h | h
  · exact h.2
  · exact absurd hm h.2

end SnapshotFormat.Sample

end NyaTerm
