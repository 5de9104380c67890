import Mathlib.Algebra.BigOperators.Group.List.Basic
import Mathlib.Algebra.GroupWithZero.Nat
import NyaTerm.Zmodem.Transfer

open List

namespace NyaTerm.Zmodem

open Detect (Direction zdle)

def ZmodemAction.isTerminal : ZmodemAction → Bool
  | .emitEvent (.complete _ _) => true
  | .emitEvent (.failed _) => true
  | _ => false

-- No event ends the transfer.
def Quiet (actions : List ZmodemAction) : Prop :=
  ∀ action ∈ actions, action.isTerminal = false

theorem Quiet.nil : Quiet [] :=
  fun _ h => absurd h not_mem_nil

variable {first : List ZmodemAction}

theorem Quiet.append (h : Quiet first) (h' : Quiet second) :
    Quiet (first ++ second) := by
  intro action hmem
  rcases mem_append.mp hmem with hmem | hmem
  · exact h action hmem
  · exact h' action hmem

theorem Quiet.singleton (h : action.isTerminal = false) : Quiet [action] := by
  intro other hmem
  rwa [mem_singleton.mp hmem]

-- A call that leaves the transfer open emits no terminal event, and one that ends it emits one as its
-- last action.
inductive Closes : Turn → Prop
  | opened {turn} : turn.2.isDone = false → Quiet turn.1 → Closes turn
  | closed {turn before last} : turn.2.isDone = true → turn.1 = before ++ [last] → Quiet before →
    last.isTerminal = true → Closes turn

variable {next : ZmodemTransfer → Turn}

namespace Closes

theorem andThen (h : Closes turn) (hopen : turn.2.isDone = false → Closes (next turn.2))
    (hdone : turn.2.isDone = true → (next turn.2).1 = [] ∧ (next turn.2).2.isDone = true) :
    Closes (turn.andThen next) := by
  cases h
  case opened hstate hquiet =>
    cases hopen hstate
    case opened hstate' hquiet' => exact .opened hstate' (hquiet.append hquiet')
    case closed before last hstate' heq hbefore hlast =>
      refine .closed hstate' ?_ (hquiet.append hbefore) hlast
      rw [Turn.andThen, heq, append_assoc]
  case closed before last hstate heq hbefore hlast =>
    obtain ⟨hnil, hstate'⟩ := hdone hstate
    refine .closed hstate' ?_ hbefore hlast
    rw [Turn.andThen, hnil, append_nil, heq]

theorem andThen_of_open (h : Closes turn) (hstate : turn.2.isDone = false) (hnext : Closes (next turn.2)) :
    Closes (turn.andThen next) := by
  apply h.andThen (fun _ => hnext)
  intro hdone
  rw [hstate] at hdone
  cases hdone

end Closes

section Coalesce

variable {P : ZmodemAction → Prop} (hwire : ∀ bytes, P (.sendToRemote bytes))
include hwire

theorem forall_coalesceInto (h : ∀ other ∈ result, P other) (haction : P action) :
    ∀ other ∈ coalesceInto result action, P other := by
  have hlast : ∀ other ∈ result ++ [action], P other :=
    forall_mem_append.mpr ⟨h, forall_mem_singleton.mpr haction⟩
  unfold coalesceInto
  split
  case h_1 =>
    split
    case isTrue =>
      refine forall_mem_append.mpr ⟨fun other hmem => h other ?_, forall_mem_singleton.mpr (hwire _)⟩
      exact (dropLast_sublist _).subset hmem
    case isFalse => exact hlast
  case h_2 => exact hlast

theorem forall_coalesceWire (h : ∀ action ∈ actions, P action) :
    ∀ action ∈ coalesceWire actions, P action := by
  have hfold : ∀ {result}, (∀ other ∈ result, P other) →
      ∀ other ∈ actions.foldl coalesceInto result, P other := by
    induction actions
    case nil => exact fun hresult => hresult
    case cons action actions ih =>
      intro result hresult
      apply ih (fun other hmem => h other (mem_cons_of_mem _ hmem))
      exact forall_coalesceInto hwire hresult (h action mem_cons_self)
  exact hfold (fun _ h => absurd h not_mem_nil)

end Coalesce

theorem coalesceWire_quiet (h : Quiet actions) : Quiet (coalesceWire actions) :=
  forall_coalesceWire (fun _ => rfl) h

theorem Closes.coalesceWire (h : Closes turn) : Closes (coalesceWire turn.1, turn.2) := by
  cases h
  case opened hstate hquiet => exact .opened hstate (coalesceWire_quiet hquiet)
  case closed before last hstate heq hbefore hlast =>
    refine .closed hstate ?_ (coalesceWire_quiet hbefore) hlast
    rw [heq, Zmodem.coalesceWire, foldl_append, foldl_cons, foldl_nil]
    cases last
    case sendToRemote bytes => cases hlast
    case emitEvent event => rfl

namespace ZmodemTransfer

variable {transfer : ZmodemTransfer} {lossy : List UInt8 → String}

theorem cancelWithReason_closes (reason : String) : Closes (transfer.cancelWithReason reason) :=
  .closed rfl (append_cons [] _ _) (.singleton rfl) rfl

-- The remote has cancelled the transfer.
def recognised : ZmodemAction :=
  .emitEvent (.failed "Remote cancelled transfer")

-- Besides, only the bytes that are consumed change the count, these are within a limit, and nothing
-- looks like a cancel of the remote.
structure Follows (limit : Nat) (transfer : ZmodemTransfer) (turn : Turn) : Prop where
  closes : Closes turn
  cancelCount : turn.2.cancelCount = transfer.cancelCount
  consumed : transfer.consumed ≤ limit → turn.2.consumed ≤ limit
  silent : ∀ action ∈ turn.1, action ≠ recognised

theorem Follows.andThen_of_open (h : transfer.Follows limit turn)
    (hstate : turn.2.isDone = false) (hnext : turn.2.Follows limit (next turn.2)) :
    transfer.Follows limit (turn.andThen next) :=
  ⟨h.closes.andThen_of_open hstate hnext.closes, hnext.cancelCount.trans h.cancelCount,
    fun hle => hnext.consumed (h.consumed hle), forall_mem_append.mpr ⟨h.silent, hnext.silent⟩⟩

theorem Follows.andThen (h : transfer.Follows limit turn)
    (hopen : turn.2.isDone = false → turn.2.Follows limit (next turn.2))
    (hdone : turn.2.isDone = true → next turn.2 = ([], turn.2)) :
    transfer.Follows limit (turn.andThen next) := by
  cases hstate : turn.2.isDone
  case false => exact h.andThen_of_open hstate (hopen hstate)
  have hnext := hdone hstate
  rw [Turn.andThen, hnext, append_nil]
  exact h

theorem Follows.of_eq {changed : ZmodemTransfer} (h : changed.Follows limit turn)
    (hcount : changed.cancelCount = transfer.cancelCount) (hconsumed : changed.consumed = transfer.consumed) :
    transfer.Follows limit turn :=
  { h with cancelCount := h.cancelCount.trans hcount, consumed := fun hle => h.consumed (hconsumed ▸ hle) }

theorem follows_quiet (h : turn.2.isDone = false) (hquiet : Quiet turn.1)
    (hcount : turn.2.cancelCount = transfer.cancelCount)
    (hconsumed : transfer.consumed ≤ limit → turn.2.consumed ≤ limit) : transfer.Follows limit turn := by
  refine ⟨.opened h hquiet, hcount, hconsumed, fun action hmem heq => ?_⟩
  have hterminal := hquiet action hmem
  rw [heq] at hterminal
  cases hterminal

theorem follows_nil (h : transfer.isDone = false) : transfer.Follows limit ([], transfer) :=
  follows_quiet h .nil rfl id

theorem follows_cancel (h : reason ≠ "Remote cancelled transfer") :
    transfer.Follows limit (transfer.cancelWithReason reason) := by
  refine ⟨cancelWithReason_closes reason, rfl, id, ?_⟩
  simpa [cancelWithReason, recognised] using h

-- A label in front of a reason tells it from the cancel of the remote.
theorem label_ne (label e : String) (h : label.toList.head?.any (· ≠ 'R') = true) :
    label ++ e ≠ "Remote cancelled transfer" := by
  intro heq
  have hhead := congrArg (fun s : String => s.toList.head?) heq
  simp only [String.toList_append, head?_append] at hhead
  cases hc : label.toList.head?
  case none => simp [hc] at h
  case some c => simp_all

theorem follows_finish (queued : List (List UInt8))
    (h : (ZmodemAction.emitEvent event).isTerminal = true)
    (hne : ZmodemAction.emitEvent event ≠ recognised) :
    transfer.Follows limit (transfer.finishWith queued event) := by
  have hwire : ∀ action ∈ queued.map ZmodemAction.sendToRemote, ∃ bytes, action = .sendToRemote bytes := by
    intro action hmem
    obtain ⟨bytes, -, rfl⟩ := mem_map.mp hmem
    exact ⟨bytes, rfl⟩
  refine ⟨.closed rfl rfl (fun action hmem => ?_) h, rfl, id,
    forall_mem_append.mpr ⟨fun action hmem => ?_, forall_mem_singleton.mpr hne⟩⟩
  · obtain ⟨bytes, rfl⟩ := hwire action hmem
    rfl
  · obtain ⟨bytes, rfl⟩ := hwire action hmem
    exact fun heq => (by cases heq)

section

variable (h : transfer.isDone = false)
include h

theorem follows_progress (name : String) (bytes size : Nat)
    (direction : Direction) (force : Bool) (now : Nat) :
    transfer.Follows limit (transfer.emitProgress name bytes size direction force now) ∧
      (transfer.emitProgress name bytes size direction force now).2.isDone = false := by
  rw [emitProgress]
  split
  case isTrue => exact ⟨follows_quiet h (.singleton rfl) rfl id, h⟩
  case isFalse => exact ⟨follows_nil h, h⟩

theorem follows_orCancel (label : String) (hlabel : label.toList.head?.any (· ≠ 'R') = true)
    (answer : Except String Unit) : transfer.Follows limit (transfer.orCancel label answer) := by
  cases answer
  case ok => exact follows_nil h
  case error e => exact follows_cancel (label_ne label e hlabel)

theorem follows_writeWire (bytes : List UInt8) :
    transfer.Follows limit (transfer.writeWire bytes) :=
  follows_quiet h (.singleton rfl) rfl id

theorem follows_progress_orCancel (name : String) (bytes size : Nat)
    (direction : Direction) (force : Bool) (now : Nat) (label : String)
    (hlabel : label.toList.head?.any (· ≠ 'R') = true) (answer : Except String Unit) :
    transfer.Follows limit ((transfer.emitProgress name bytes size direction force now).andThen
      fun transfer =>
      transfer.orCancel label answer) := by
  obtain ⟨hprogress, hstate⟩ := follows_progress h name bytes size direction force now
  exact hprogress.andThen_of_open hstate (follows_orCancel hstate label hlabel answer)

end

theorem follows_receiveData (file : ReceiveFile) (bytes : List UInt8) (received : Received) :
    transfer.Follows limit (transfer.receiveData file bytes received) := by
  refine Follows.of_eq (follows_progress_orCancel rfl _ _ _ _ _ _ _ (by decide) _) rfl rfl

theorem follows_endFile : transfer.Follows limit ([], transfer.endFile) :=
  follows_quiet rfl .nil rfl id

theorem follows_handleReceived (hopen : transfer.isDone = false)
    (h : transfer.handleReceived lossy received = some turn) : transfer.Follows limit turn := by
  rw [handleReceived] at h
  split at h
  case h_2 => cases h
  case h_1 currentFile hstate =>
    split at h <;> cases h
    case h_1 => exact follows_writeWire hopen _
    case h_2 => exact follows_cancel (by decide)
    case h_3 => exact follows_cancel (label_ne _ _ (by decide))
    case h_4 => exact follows_receiveData _ _ _
    case h_5 => exact follows_cancel (label_ne _ _ (by decide))
    case h_6 => exact Follows.of_eq (follows_progress rfl _ _ _ _ _ _).1 rfl rfl
    case h_7 => exact follows_endFile
    case h_8 =>
      obtain ⟨hprogress, hstate'⟩ := follows_progress hopen _ _ _ _ _ _
      apply hprogress.andThen_of_open hstate'
      apply (follows_orCancel hstate' _ (by decide) _).andThen
      · intro hdone
        rw [hdone]
        exact follows_endFile
      · intro hdone
        rw [if_pos hdone]
    case h_9 | h_10 => exact follows_finish _ rfl (by simp [recognised])

theorem startError_ne (e : StartError) : e.reason ≠ "Remote cancelled transfer" := by
  cases e
  case tooLarge => decide
  all_goals exact label_ne _ _ (by decide)

section

variable (files : List String) (index : Nat)
include files index

theorem follows_startFile (start : Except StartError Nat) (now : Nat) :
    transfer.Follows limit (transfer.startFile files index start now) := by
  cases start
  case error e => exact Follows.of_eq (follows_cancel (startError_ne e)) rfl rfl
  case ok size => exact Follows.of_eq (follows_progress rfl _ _ _ _ _ _).1 rfl rfl

theorem follows_sendData (file : SendFile) (offset : Nat) (sent : Sent) :
    transfer.Follows limit (transfer.sendData files index file offset sent) := by
  rw [sendData]
  split
  case h_1 => exact follows_cancel (label_ne _ _ (by decide))
  split
  case h_1 => exact follows_cancel (label_ne _ _ (by decide))
  split
  case isTrue => exact follows_cancel (by decide)
  refine Follows.of_eq (follows_progress_orCancel rfl _ _ _ _ _ _ _ (by decide) _) rfl rfl

theorem follows_nextFile (sent : Sent) :
    transfer.Follows limit (transfer.nextFile files index sent) := by
  rw [nextFile]
  split
  case isTrue => exact Follows.of_eq (follows_startFile _ _ _ _) rfl rfl
  case isFalse => exact Follows.of_eq (follows_orCancel rfl _ (by decide) _) rfl rfl

end

theorem follows_handleSent (hopen : transfer.isDone = false)
    (h : transfer.handleSent sent = some turn) : transfer.Follows limit turn := by
  rw [handleSent] at h
  split at h
  case h_2 => cases h
  case h_1 files index currentFile hstate =>
    split at h <;> cases h
    case h_1 => exact follows_writeWire hopen _
    case h_2 => exact follows_cancel (by decide)
    case h_3 => exact follows_sendData _ _ _ _ _
    case h_4 => exact follows_nextFile _ _ _
    case h_5 =>
      obtain ⟨hprogress, hstate'⟩ := follows_progress hopen _ _ _ _ _ _
      exact hprogress.andThen_of_open hstate' (follows_nextFile _ _ _)
    case h_6 | h_7 => exact follows_finish _ rfl (by simp [recognised])

section Loops

variable {handle : ZmodemTransfer → π → Option Turn}

theorem follows_pump (hhandle : ∀ {transfer poll turn}, transfer.isDone = false →
      handle transfer poll = some turn → transfer.Follows limit turn)
    (hopen : transfer.isDone = false) (polls : List π) :
    transfer.Follows limit (transfer.pump handle polls) := by
  induction polls generalizing transfer
  case nil =>
    rw [pump]
    split
    case isTrue => exact follows_quiet hopen .nil rfl id
    case isFalse => exact follows_nil hopen
  case cons poll polls ih =>
    rw [pump]
    split
    case isTrue => exact follows_quiet hopen .nil rfl id
    split
    case h_1 => exact follows_nil hopen
    case h_2 turn hturn =>
      have hfollows := hhandle hopen hturn
      split
      case isTrue => exact hfollows
      case isFalse hdone =>
        rw [Bool.not_eq_true] at hdone
        exact hfollows.andThen_of_open hdone (ih hdone)

theorem follows_feedRounds {pump : ZmodemTransfer → List π → Turn}
    (hpump : ∀ {transfer : ZmodemTransfer} polls, transfer.isDone = false →
      transfer.Follows limit (pump transfer polls))
    (hopen : transfer.isDone = false) (label : String)
    (hlabel : label.toList.head?.any (· ≠ 'R') = true) (offset : Nat) (rounds : List (Round π)) :
    transfer.Follows limit (feedRounds pump label limit transfer offset rounds) := by
  induction rounds generalizing transfer offset
  case nil => exact hpump [] hopen
  case cons round rounds ih =>
    apply (hpump round.polls hopen).andThen
    · intro hstate
      have hnext : ∀ consumed ≤ limit, (pump transfer round.polls).2.Follows limit (feedRounds pump
          label limit { (pump transfer round.polls).2 with consumed } consumed rounds) := by
        intro consumed hle
        have h := @ih { (pump transfer round.polls).2 with consumed } hstate consumed
        exact { h with consumed := fun _ => h.consumed hle }
      split
      case isTrue => exact follows_nil hstate
      case isFalse hgo =>
        have hlt : offset < limit := Nat.lt_of_not_le fun hle => hgo (.inr (.inr hle))
        split
        case h_1 =>
          dsimp only
          split
          case isTrue => exact follows_nil hstate
          case isFalse => exact hnext _ (by omega)
        case h_2 => exact hnext _ hlt
        case h_3 => exact follows_cancel (label_ne _ _ hlabel)
    · exact fun hstate => if_pos (.inl hstate)

end Loops

section

variable (hopen : transfer.isDone = false)
include hopen

theorem follows_pumpReceiver (polls : List Received) :
    transfer.Follows limit (pumpReceiver lossy transfer polls) :=
  follows_pump follows_handleReceived hopen polls

theorem follows_pumpSender (polls : List Sent) :
    transfer.Follows limit (pumpSender transfer polls) :=
  follows_pump follows_handleSent hopen polls

theorem follows_take (data : List UInt8) (rounds : Rounds) :
    ({ transfer with consumed := 0 } : ZmodemTransfer).Follows (feedLimit transfer.cancelCount data)
      (transfer.take lossy data rounds) := by
  rw [take]
  dsimp only
  split
  case h_1 => exact follows_quiet rfl .nil rfl (fun _ => Nat.le_refl _)
  case h_2 =>
    refine @follows_feedRounds _ { transfer with consumed := 0 } _ _ ?_ hopen _ ?_ 0 rounds.receiver
    · exact fun polls h => follows_pumpReceiver h polls
    · decide
  case h_3 =>
    refine @follows_feedRounds _ { transfer with consumed := 0 } _ _ ?_ hopen _ ?_ 0 rounds.sender
    · exact fun polls h => follows_pumpSender h polls
    · decide
  case h_4 hstate => simp [isDone, hstate] at hopen

theorem feedInner_closes (data : List UInt8) (rounds : Rounds) :
    Closes (transfer.feedInner lossy data rounds) := by
  have htake : ∀ count, Closes ((transfer.take lossy data rounds).1,
      { (transfer.take lossy data rounds).2 with cancelCount := count }) := by
    intro count
    cases (@follows_take transfer lossy hopen data rounds).closes
    case opened hstate hquiet => exact .opened hstate hquiet
    case closed before last hstate heq hbefore hlast => exact .closed hstate heq hbefore hlast
  rw [feedInner]
  split
  case h_1 =>
    split
    case isTrue => exact cancelWithReason_closes _
    case isFalse => exact htake _
  case h_2 => exact htake _

end

theorem state_of_isDone (h : transfer.isDone = true) : transfer.state = .done := by
  rw [isDone] at h
  split at h
  case h_1 hstate => exact hstate
  case h_2 => cases h

section

variable (hdone : transfer.isDone = true)
include hdone

theorem feedInner_eq_of_done (data : List UInt8) (rounds : Rounds) :
    transfer.feedInner lossy data rounds = ([], { transfer with consumed := 0 }) := by
  have hstate := state_of_isDone hdone
  have htake : transfer.take lossy data rounds = ([], { transfer with consumed := 0 }) := by
    rw [take]
    rw [hstate]
  rw [feedInner, htake]
  split
  case h_1 =>
    rw [if_neg]
    · rfl
    · exact fun h => h.2.2 hdone
  case h_2 => rfl

theorem feedInner_of_done (data : List UInt8) (rounds : Rounds) :
    (transfer.feedInner lossy data rounds).1 = [] ∧
      (transfer.feedInner lossy data rounds).2.isDone = true := by
  rw [feedInner_eq_of_done hdone]
  exact ⟨rfl, hdone⟩

omit hdone in
theorem feedIncoming_closes (hopen : transfer.isDone = false) (data : List UInt8) (rounds : Rounds) :
    Closes (transfer.feedIncoming lossy data rounds) := by
  apply feedInner_closes
  exact hopen

theorem feedIncoming_of_done (data : List UInt8) (rounds : Rounds) :
    (transfer.feedIncoming lossy data rounds).1 = [] ∧
      (transfer.feedIncoming lossy data rounds).2.isDone = true := by
  apply feedInner_of_done
  exact hdone

omit hdone in
theorem flushOutgoing_closes (hopen : transfer.isDone = false) (received : List Received)
    (sent : List Sent) : Closes (transfer.flushOutgoing lossy received sent) := by
  rw [flushOutgoing]
  split
  case h_1 => exact (@follows_pumpReceiver _ _ hopen 0 _).closes
  case h_2 => exact (@follows_pumpSender _ hopen 0 _).closes
  case h_3 => exact .opened hopen .nil

theorem flushOutgoing_of_done (received : List Received)
    (sent : List Sent) :
    (transfer.flushOutgoing lossy received sent).1 = [] ∧
      (transfer.flushOutgoing lossy received sent).2.isDone = true := by
  rw [flushOutgoing, state_of_isDone hdone]
  exact ⟨rfl, hdone⟩

omit hdone in
theorem startNextSendFile_closes (hopen : transfer.isDone = false) (start : Except StartError Nat)
    (now : Nat) : Closes (transfer.startNextSendFile start now) := by
  rw [startNextSendFile]
  split
  case h_1 =>
    split
    case isTrue => exact .opened hopen .nil
    case isFalse => exact (@follows_startFile _ _ _ 0 _ _).closes
  case h_2 => exact .opened hopen .nil

theorem startNextSendFile_of_done (start : Except StartError Nat)
    (now : Nat) :
    (transfer.startNextSendFile start now).1 = [] ∧
      (transfer.startNextSendFile start now).2.isDone = true := by
  rw [startNextSendFile, state_of_isDone hdone]
  exact ⟨rfl, hdone⟩

end

section

variable (hopen : transfer.isDone = false)
include hopen

theorem acceptDownload_closes (created : Except String Unit)
    (polls : List Received) (rounds : Rounds) :
    Closes (transfer.acceptDownload lossy created polls rounds) := by
  rw [acceptDownload]
  split
  case h_1 =>
    split
    case h_1 => exact cancelWithReason_closes _
    case h_2 =>
      apply Closes.andThen
      · exact (@follows_pumpReceiver _ _ rfl 0 polls).closes
      · exact fun h => feedIncoming_closes h _ _
      · exact fun h => feedIncoming_of_done h _ _
  case h_2 => exact .opened hopen .nil

theorem acceptUpload_closes (upload : Upload) :
    Closes (transfer.acceptUpload lossy upload) := by
  rw [acceptUpload]
  split
  case h_1 =>
    split
    case h_1 => exact cancelWithReason_closes _
    split
    case isTrue => exact cancelWithReason_closes _
    split
    case h_1 => exact cancelWithReason_closes _
    case h_2 =>
      apply Closes.andThen
      · apply Closes.andThen
        · apply Closes.andThen
          · apply flushOutgoing_closes
            rfl
          · exact fun h => feedIncoming_closes h _ _
          · exact fun h => feedIncoming_of_done h _ _
        · exact fun h => startNextSendFile_closes h _ _
        · exact fun h => startNextSendFile_of_done h _ _
      · exact fun h => flushOutgoing_closes h _ _
      · exact fun h => flushOutgoing_of_done h _ _
  case h_2 => exact .opened hopen .nil

def Call.isCancel : Call → Bool
  | .cancel _ => true
  | _ => false

theorem call_closes (call : Call) :
    Closes (transfer.call lossy call) := by
  cases call
  case feedIncoming data rounds => exact feedIncoming_closes hopen data rounds
  case advance data rounds =>
    apply Closes.coalesceWire
    apply feedInner_closes
    exact hopen
  case cancel reason => exact cancelWithReason_closes reason
  case acceptDownload created polls rounds => exact acceptDownload_closes hopen created polls rounds
  case acceptUpload upload => exact acceptUpload_closes hopen upload

end

theorem call_of_done (hdone : transfer.isDone = true) {call : Call} (hcancel : call.isCancel = false) :
    (transfer.call lossy call).1 = [] ∧ (transfer.call lossy call).2.isDone = true := by
  have hstate := state_of_isDone hdone
  cases call
  case feedIncoming data rounds => exact feedIncoming_of_done hdone data rounds
  case advance data rounds =>
    rw [ZmodemTransfer.call, advance]
    rw [(feedInner_of_done _ data rounds).1]
    · refine ⟨rfl, (feedInner_of_done ?_ data rounds).2⟩
      exact hdone
    · exact hdone
  case cancel => cases hcancel
  case acceptDownload created polls rounds =>
    rw [ZmodemTransfer.call, acceptDownload, hstate]
    exact ⟨rfl, hdone⟩
  case acceptUpload upload =>
    rw [ZmodemTransfer.call, acceptUpload, hstate]
    exact ⟨rfl, hdone⟩

end ZmodemTransfer

-- Nothing follows a terminal event, so that there is one at most.
def EndsOnce (actions : List ZmodemAction) : Prop :=
  ∀ before action after, actions = before ++ action :: after → action.isTerminal = true → after = []

theorem EndsOnce.of_quiet (h : Quiet actions) : EndsOnce actions := by
  rintro before action after rfl hterminal
  rw [h action (by simp)] at hterminal
  cases hterminal

theorem endsOnce_quiet_append (h : Quiet first) :
    EndsOnce (first ++ second) ↔ EndsOnce second := by
  constructor
  · rintro honce before action after rfl hterminal
    exact honce (first ++ before) action after (by rw [append_assoc]) hterminal
  · intro honce before action after heq hterminal
    rcases append_eq_append_iff.mp heq with ⟨rest, rfl, hsecond⟩ | ⟨rest, rfl, hrest⟩
    · exact honce rest action after hsecond hterminal
    · cases rest
      case nil => exact honce [] action after hrest.symm hterminal
      case cons other rest =>
        cases hrest
        rw [h action (by simp)] at hterminal
        cases hterminal

theorem endsOnce_closed_append (h : Quiet before) (hlast : last.isTerminal = true) :
    EndsOnce (before ++ [last] ++ second) ↔ second = [] := by
  rw [append_assoc, endsOnce_quiet_append h]
  constructor
  · exact fun honce => honce [] last second rfl hlast
  · rintro rfl before' action after heq -
    have hlength := congrArg List.length heq
    simp only [append_nil, length_append, length_cons, length_nil] at hlength
    exact eq_nil_of_length_eq_zero (by omega)

namespace ZmodemTransfer

variable {transfer : ZmodemTransfer}

-- No call cancels a transfer that has ended.
def NeverCancelsDone (lossy : List UInt8 → String) (transfer : ZmodemTransfer) : List Call → Prop
  | [] => True
  | call :: calls =>
    ¬ (transfer.isDone = true ∧ call.isCancel = true) ∧
      NeverCancelsDone lossy (transfer.call lossy call).2 calls

theorem run_of_done (hdone : transfer.isDone = true) (calls : List Call) :
    (transfer.run lossy calls).1 = [] ↔ transfer.NeverCancelsDone lossy calls := by
  induction calls generalizing transfer
  case nil => exact iff_of_true rfl trivial
  case cons call calls ih =>
    rw [run, NeverCancelsDone, Turn.andThen, append_eq_nil_iff]
    cases hcancel : call.isCancel
    case true =>
      refine iff_of_false (fun h => ?_) (fun h => h.1 ⟨hdone, rfl⟩)
      cases call
      case cancel reason => cases h.1
      all_goals cases hcancel
    case false =>
      obtain ⟨hnil, hdone'⟩ := @call_of_done transfer lossy hdone call hcancel
      rw [ih hdone']
      exact ⟨fun h => ⟨fun hboth => (by cases hboth.2), h.2⟩, fun h => ⟨hnil, h.2⟩⟩

theorem run_of_open (hopen : transfer.isDone = false) (calls : List Call) :
    EndsOnce (transfer.run lossy calls).1 ↔ transfer.NeverCancelsDone lossy calls := by
  induction calls generalizing transfer
  case nil => exact iff_of_true (.of_quiet .nil) trivial
  case cons call calls ih =>
    have hfirst : ¬ (transfer.isDone = true ∧ call.isCancel = true) := by
      rw [hopen]
      exact fun h => (by cases h.1)
    rw [run, NeverCancelsDone, Turn.andThen, and_iff_right hfirst]
    cases @call_closes transfer lossy hopen call
    case opened hstate hquiet => rw [endsOnce_quiet_append hquiet, ih hstate]
    case closed before last hstate heq hbefore hlast =>
      rw [heq, endsOnce_closed_append hbefore hlast, run_of_done hstate]

section Cancel

variable {count : Nat}

theorem cancelEnd_append : cancelEnd count (data ++ later) =
    (cancelEnd count data).or
      ((cancelEnd (data.foldl countByte count) later).map (· + data.length)) := by
  induction data generalizing count
  case nil => simp [cancelEnd]
  case cons b data ih =>
    rw [cons_append, cancelEnd, cancelEnd]
    split
    case isTrue => rfl
    rw [ih, foldl_cons]
    cases cancelEnd (countByte count b) data
    case some => rfl
    case none =>
      cases cancelEnd (data.foldl countByte (countByte count b)) later
      case none => rfl
      case some stop => simp [Nat.add_assoc]

theorem cancelEnd_le (h : cancelEnd count data = some stop) : 0 < stop ∧ stop ≤ data.length := by
  induction data generalizing count stop
  case nil => cases h
  case cons b data ih =>
    rw [cancelEnd] at h
    split at h
    case isTrue => cases h; simp
    case isFalse =>
      obtain ⟨stop', h', rfl⟩ := Option.map_eq_some_iff.mp h
      exact ⟨Nat.succ_pos _, Nat.succ_le_succ (ih h').2⟩

theorem cancelEnd_take_end (h : cancelEnd count data = some stop) :
    cancelEnd count (data.take stop) = some stop := by
  induction data generalizing count stop
  case nil => cases h
  case cons b data ih =>
    rw [cancelEnd] at h
    split at h
    case isTrue hfound =>
      cases h
      exact if_pos hfound
    case isFalse hnone =>
      obtain ⟨stop', h', rfl⟩ := Option.map_eq_some_iff.mp h
      rw [take_succ_cons, cancelEnd, if_neg hnone, ih h']
      rfl

theorem feedLimit_le : feedLimit count data ≤ data.length := by
  rw [feedLimit]
  split
  case h_1 stop h => exact Nat.le_trans (Nat.sub_le _ _) (cancelEnd_le h).2
  case h_2 => exact Nat.le_refl _

-- There is no cancel sequence in what is given to the library.
theorem cancelEnd_take {size : Nat} (h : size ≤ feedLimit count data) :
    cancelEnd count (data.take size) = none := by
  cases hend : cancelEnd count (data.take size)
  case none => rfl
  case some stop =>
    have hwhole : cancelEnd count data = some stop := by
      rw [← take_append_drop size data, cancelEnd_append, hend]
      rfl
    have hle := cancelEnd_le hend
    rw [length_take] at hle
    simp only [feedLimit, hwhole, cancelSeqLen] at h
    omega

-- What the recognition of a cancel sequence in data depends on.
inductive Recognition (count : Nat) (data : List UInt8) (turn : Turn) : Prop
  | passed : (∀ action ∈ turn.1, action ≠ recognised) → turn.2.consumed ≤ data.length →
    cancelEnd count (data.take turn.2.consumed) = none →
    turn.2.cancelCount = (data.take turn.2.consumed).foldl countByte count → Recognition count data turn
  | found : turn.1 = [.sendToRemote cancelSequence, recognised] → turn.2.isDone = true →
    cancelEnd count data = some turn.2.consumed → Recognition count data turn

theorem feedInner_recognition (hopen : transfer.isDone = false) (data : List UInt8) (rounds : Rounds) :
    Recognition transfer.cancelCount data (transfer.feedInner lossy data rounds) := by
  have htake := @follows_take transfer lossy hopen data rounds
  have hconsumed := htake.consumed (Nat.zero_le _)
  have hpassed : Recognition transfer.cancelCount data ((transfer.take lossy data rounds).1,
      { (transfer.take lossy data rounds).2 with
        cancelCount := (data.take (transfer.take lossy data rounds).2.consumed).foldl countByte
          (transfer.take lossy data rounds).2.cancelCount }) := by
    refine .passed htake.silent (Nat.le_trans hconsumed feedLimit_le) (cancelEnd_take hconsumed) ?_
    dsimp only
    rw [htake.cancelCount]
  rw [feedInner]
  dsimp only
  split
  case h_1 stop hend =>
    split
    case isTrue => exact .found rfl rfl hend
    case isFalse => exact hpassed
  case h_2 => exact hpassed

theorem Recognition.coalesceWire (h : Recognition count data turn) :
    Recognition count data (coalesceWire turn.1, turn.2) := by
  cases h
  case passed hsilent hle hend hcount =>
    exact .passed (forall_coalesceWire (fun _ heq => (by cases heq)) hsilent) hle hend hcount
  case found heq hdone hend => exact .found (congrArg Zmodem.coalesceWire heq) hdone hend

end Cancel

-- A call that is given some of the bytes that have not been consumed, with a budget for the wire or
-- without.
structure Feed where
  bounded : Bool
  count : Nat
  rounds : Rounds

def Feed.call (feed : Feed) (stream : List UInt8) : Call :=
  if feed.bounded then .advance (stream.take feed.count) feed.rounds
  else .feedIncoming (stream.take feed.count) feed.rounds

section Feeds

variable {feed : Feed} {stream : List UInt8}

-- The runtime gives the bytes that are not consumed again. The first result are those that are left.
def feedAll (lossy : List UInt8 → String) (transfer : ZmodemTransfer) (stream : List UInt8) :
    List Feed → List UInt8 × Turn
  | [] => (stream, [], transfer)
  | feed :: feeds =>
    let turn := transfer.call lossy (feed.call stream)
    let later := turn.2.feedAll lossy (stream.drop turn.2.consumed) feeds
    (later.1, turn.1 ++ later.2.1, later.2.2)

theorem call_recognition (hopen : transfer.isDone = false) (feed : Feed) (stream : List UInt8) :
    Recognition transfer.cancelCount (stream.take feed.count)
      (transfer.call lossy (feed.call stream)) := by
  rw [Feed.call]
  split
  case isTrue =>
    exact (@feedInner_recognition { transfer with
      wireBudget := some (wireBatchSize - 4096), wireProduced := 0, more := false } _ hopen _ _).coalesceWire
  case isFalse =>
    exact @feedInner_recognition { transfer with
      wireBudget := none, wireProduced := 0, more := false } _ hopen _ _

theorem call_feed_of_done (hdone : transfer.isDone = true) (feed : Feed) (stream : List UInt8) :
    (transfer.call lossy (feed.call stream)).1 = [] ∧
      (transfer.call lossy (feed.call stream)).2.isDone = true ∧
      (transfer.call lossy (feed.call stream)).2.consumed = 0 := by
  rw [Feed.call]
  split
  case isTrue =>
    have h := @feedInner_eq_of_done { transfer with
      wireBudget := some (wireBatchSize - 4096), wireProduced := 0, more := false } lossy hdone
    simp only [call, advance, h]
    exact ⟨rfl, hdone, trivial⟩
  case isFalse =>
    have h := @feedInner_eq_of_done { transfer with
      wireBudget := none, wireProduced := 0, more := false } lossy hdone
    simp only [call, feedIncoming, h]
    exact ⟨trivial, hdone, trivial⟩

theorem feedAll_of_done (hdone : transfer.isDone = true) (feeds : List Feed) :
    (transfer.feedAll lossy stream feeds).1 = stream ∧
      (transfer.feedAll lossy stream feeds).2.1 = [] ∧
      (transfer.feedAll lossy stream feeds).2.2.isDone = true := by
  induction feeds generalizing transfer
  case nil => exact ⟨rfl, rfl, hdone⟩
  case cons feed feeds ih =>
    obtain ⟨hnil, hdone', hconsumed⟩ := call_feed_of_done hdone feed stream
    rw [feedAll]
    dsimp only
    rw [hnil, hconsumed]
    exact ih hdone'

-- The cancel sequence is recognised exactly if it has been consumed.
theorem feedAll_recognises (hopen : transfer.isDone = false) (feeds : List Feed) : ∃ taken,
    stream = taken ++ (transfer.feedAll lossy stream feeds).1 ∧
    (recognised ∈ (transfer.feedAll lossy stream feeds).2.1 ↔
      (cancelEnd transfer.cancelCount taken).isSome = true) ∧
    (recognised ∈ (transfer.feedAll lossy stream feeds).2.1 →
      (transfer.feedAll lossy stream feeds).2.2.isDone = true ∧
        cancelEnd transfer.cancelCount stream = some taken.length) := by
  induction feeds generalizing transfer stream
  case nil => exact ⟨[], rfl, by simp [feedAll, cancelEnd], by simp [feedAll]⟩
  case cons feed feeds ih =>
    rw [feedAll]
    dsimp only
    have hcall := @call_recognition transfer lossy hopen feed stream
    generalize transfer.call lossy (feed.call stream) = turn at hcall
    cases hcall
    case passed hsilent hle hend hcount =>
      rw [length_take, Nat.le_min] at hle
      rw [take_take, Nat.min_eq_left hle.1] at hend hcount
      have hsilent : recognised ∉ turn.1 := fun hmem => hsilent _ hmem rfl
      have hsplit := (take_append_drop turn.2.consumed stream).symm
      cases hstate : turn.2.isDone
      case true =>
        obtain ⟨hrest, hnil, hdone⟩ := @feedAll_of_done _ (stream.drop turn.2.consumed) lossy hstate feeds
        rw [hrest, hnil, append_nil]
        exact ⟨_, hsplit, by simp [hsilent, hend], fun hmem => absurd hmem hsilent⟩
      case false =>
        obtain ⟨taken, htaken, hiff, hfound⟩ := @ih turn.2 (stream.drop turn.2.consumed) hstate
        rw [hcount] at hiff hfound
        refine ⟨stream.take turn.2.consumed ++ taken, ?_, ?_, ?_⟩
        · rw [append_assoc, ← htaken, take_append_drop]
        · rw [mem_append, or_iff_right hsilent, hiff, cancelEnd_append, hend]
          simp
        · intro hmem
          obtain ⟨hdone, hstop⟩ := hfound ((mem_append.mp hmem).resolve_left hsilent)
          refine ⟨hdone, ?_⟩
          rw [hsplit, cancelEnd_append, hend, hstop]
          simp [Nat.add_comm]
    case found heq hdone hend =>
      obtain ⟨hrest, hnil, hdone⟩ := @feedAll_of_done _ (stream.drop turn.2.consumed) lossy hdone feeds
      have hle := (cancelEnd_le hend).2
      rw [length_take, Nat.le_min] at hle
      have hwhole : cancelEnd transfer.cancelCount stream = some turn.2.consumed := by
        rw [← take_append_drop feed.count stream, cancelEnd_append, hend]
        rfl
      have htaken := cancelEnd_take_end hwhole
      rw [hrest, hnil, append_nil, heq]
      refine ⟨stream.take turn.2.consumed, (take_append_drop ..).symm, ?_, fun _ => ⟨hdone, ?_⟩⟩
      · simp [htaken]
      · rw [hwhole, length_take, Nat.min_eq_left hle.2]

theorem call_waiting (hstate : transfer.state = .waitingForUser buffered)
    (hend : cancelEnd transfer.cancelCount (stream.take feed.count) = none) :
    (∃ buffered', (transfer.call lossy (feed.call stream)).2.state = .waitingForUser buffered') ∧
      (transfer.call lossy (feed.call stream)).2.cancelCount =
        (stream.take feed.count).foldl countByte transfer.cancelCount ∧
      stream.drop (transfer.call lossy (feed.call stream)).2.consumed = stream.drop feed.count := by
  have hdrop : stream.drop (stream.take feed.count).length = stream.drop feed.count := by simp
  rw [Feed.call]
  split <;>
    simp [call, advance, feedIncoming, feedInner, take, feedLimit, hstate, hend, hdrop, -length_take]

theorem call_waiting_found (hstate : transfer.state = .waitingForUser buffered)
    (hend : cancelEnd transfer.cancelCount (stream.take feed.count) = some stop) :
    recognised ∈ (transfer.call lossy (feed.call stream)).1 := by
  rw [Feed.call]
  split
  · simp [call, advance, feedInner, take, feedLimit, hstate, hend, isDone, cancelWithReason,
      coalesceWire, coalesceInto, recognised]
  · simp [call, feedIncoming, feedInner, take, feedLimit, hstate, hend, isDone, cancelWithReason,
      recognised]

-- While the transfer waits for the user, all that arrives is consumed.
theorem feedAll_waiting (hstate : transfer.state = .waitingForUser buffered) (feeds : List Feed) :
    recognised ∈ (transfer.feedAll lossy stream feeds).2.1 ↔
      (cancelEnd transfer.cancelCount (stream.take (feeds.map Feed.count).sum)).isSome = true := by
  induction feeds generalizing transfer buffered stream
  case nil => simp [feedAll, cancelEnd]
  case cons feed feeds ih =>
    have hopen : transfer.isDone = false := by simp [isDone, hstate]
    rw [feedAll, map_cons, sum_cons, take_add, cancelEnd_append]
    dsimp only
    cases hend : cancelEnd transfer.cancelCount (stream.take feed.count)
    case some stop => exact iff_of_true (mem_append_left _ (call_waiting_found hstate hend)) rfl
    case none =>
      obtain ⟨⟨buffered', hstate'⟩, hcount, hdrop⟩ := @call_waiting _ feed stream _ lossy hstate hend
      have hsilent : recognised ∉ (transfer.call lossy (feed.call stream)).1 := by
        cases @call_recognition transfer lossy hopen feed stream
        case passed hsilent _ _ _ => exact fun hmem => hsilent _ hmem rfl
        case found hfound => rw [hend] at hfound; cases hfound
      rw [mem_append, or_iff_right hsilent, ih hstate', hcount, hdrop, Option.none_or, Option.isSome_map]

end Feeds

end ZmodemTransfer

end NyaTerm.Zmodem
