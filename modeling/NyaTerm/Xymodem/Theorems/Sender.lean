import Mathlib.Algebra.BigOperators.Group.List.Basic
import Mathlib.Algebra.GroupWithZero.Nat
import Mathlib.Data.List.Forall2
import Mathlib.Data.List.TakeDrop
import NyaTerm.Xymodem.Sender

open List

namespace NyaTerm.Xymodem

variable {files : List File}

-- The packets of a file before its blocks.
def introduction (protocol : Protocol) (file : File) (crc : Bool) : List Bytes :=
  match protocol with
  | .xmodem => []
  | .ymodem => [packet 0 (header file) crc]

-- Blocks with their payloads, numbered from one on.
def blocks (cells : List (Bytes × Bool)) : List Bytes :=
  cells.mapIdx fun i cell => packet (UInt8.ofNat (i + 1)) cell.1 cell.2

def payloads (cells : List (Bytes × Bool)) : Bytes :=
  cells.flatMap Prod.fst

-- What is acknowledged of a file: the header, the blocks that make up the file and the end of the
-- transmission.
def IsComplete (protocol : Protocol) (file : File) (acks : List Bytes) : Prop :=
  ∃ crc cells, acks = introduction protocol file crc ++ blocks cells ++ [[eot]] ∧
    file.size ≤ file.content.length ∧ (payloads cells).take file.size = file.content.take file.size

-- What is acknowledged of a file up to an offset.
def IsBegun (protocol : Protocol) (file : File) (acks : List Bytes) : Prop :=
  acks = [] ∨ ∃ crc cells offset, acks = introduction protocol file crc ++ blocks cells ∧
    offset ≤ file.size ∧ (payloads cells).take offset = file.content.take offset ∧
    (offset < file.size → (payloads cells).length = offset)

theorem blocks_append (cells : List (Bytes × Bool)) (data : Bytes) (crc : Bool) :
    blocks (cells ++ [(data, crc)]) =
      blocks cells ++ [packet (UInt8.ofNat (cells.length + 1)) data crc] := by
  rw [blocks, mapIdx_append, mapIdx_singleton, Nat.zero_add]
  rfl

theorem payloads_append (cells : List (Bytes × Bool)) (data : Bytes) (crc : Bool) :
    payloads (cells ++ [(data, crc)]) = payloads cells ++ data := by
  rw [payloads, flatMap_append, flatMap_singleton]
  rfl

theorem packet_ne_nil {sequence : UInt8} : packet sequence data crc ≠ [] := by
  simp [packet]

namespace Sender

variable {sender : Sender} {file : File} {current : List Bytes} {now : Nat}

-- The blocks up to the offset have been acknowledged.
structure Acked (sender : Sender) (file : File) (current : List Bytes) : Prop where
  found : sender.files[sender.fileIndex]? = some file
  acks : ∃ crc cells, current = introduction sender.protocol file crc ++ blocks cells ∧
    (payloads cells).take sender.offset = file.content.take sender.offset ∧
    (sender.offset < file.size → (payloads cells).length = sender.offset) ∧
    sender.sequence = UInt8.ofNat (cells.length + 1)
  offset_le : sender.offset ≤ file.size
  read : sender.offset ≤ file.content.length

-- A block that is not acknowledged yet.
structure Pending (sender : Sender) (file : File) (data : Bytes) : Prop where
  positive : 0 < sender.pendingBytes
  within : sender.offset + sender.pendingBytes ≤ file.size
  read : sender.offset + sender.pendingBytes ≤ file.content.length
  payload : data.take sender.pendingBytes =
    (file.content.drop sender.offset).take sender.pendingBytes
  full : sender.offset + sender.pendingBytes < file.size → data.length = sender.pendingBytes
  last : sender.lastPacket = packet sender.sequence data sender.crc
  unread : sender.unread = file.content.drop (sender.offset + sender.pendingBytes)

def Fits (sender : Sender) (current : List Bytes) : Stage → Prop
  | .start => current = [] ∧ sender.offset = 0 ∧ sender.sequence = 1 ∧ sender.lastPacket = [] ∧
    (∀ file ∈ sender.files[sender.fileIndex]?, sender.unread = file.content) ∧
    (sender.protocol = .xmodem → sender.fileIndex < sender.files.length)
  | .headerAck => sender.protocol = .ymodem ∧ current = [] ∧ sender.offset = 0 ∧ sender.sequence = 1 ∧
    ∃ file crc, sender.files[sender.fileIndex]? = some file ∧ sender.unread = file.content ∧
      sender.lastPacket = packet 0 (header file) crc
  | .dataStart => ∃ file, sender.Acked file current ∧ sender.unread = file.content.drop sender.offset
  | .dataAck => ∃ file data, sender.Acked file current ∧ sender.Pending file data
  | .eotAck => ∃ file, sender.Acked file current ∧ sender.offset = file.size ∧
    sender.lastPacket = [eot]
  | .batchAck => sender.fileIndex = sender.files.length ∧ sender.offset = 0
  | .done => ∀ file, sender.files[sender.fileIndex]? = some file →
    IsBegun sender.protocol file current

structure Valid (sender : Sender) (log : Log) : Prop where
  index : sender.fileIndex ≤ sender.files.length
  complete : List.Forall₂ (IsComplete sender.protocol) (sender.files.take sender.fileIndex) log.complete
  accepted : sender.acceptedBytes =
    ((sender.files.take sender.fileIndex).map File.size).sum + sender.offset
  total : sender.totalBytes = (sender.files.map File.size).sum
  single : sender.protocol = .xmodem → sender.files.length = 1
  stage : sender.Fits log.current sender.stage

-- What would be sent again is what was sent last.
def Sent (sender : Sender) (sent : Bytes) : Prop :=
  sender.lastPacket ≠ [] → sent = sender.lastPacket

-- The outcome, if there is one, is the last action.
def Ends (actions : List Action) (sender : Sender) : Prop :=
  sender.stage ≠ .done ∧ (∀ result, .finished result ∉ actions) ∨
    sender.stage = .done ∧ ∃ before result, actions = before ++ [.finished result] ∧
      (∀ result, .finished result ∉ before) ∧
      (result = .ok () → sender.fileIndex = sender.files.length)

def InBounds (actions : List Action) : Prop :=
  ∀ progress, .progress progress ∈ actions →
    progress.bytesTransferred ≤ progress.totalBytes ∧ progress.filesCompleted ≤ progress.filesTotal

-- What a function of the sender leaves.
structure Leaves (sender : Sender) (result : List Action × Sender) (log : Log) : Prop where
  valid : result.2.Valid log
  files : result.2.files = sender.files
  protocol : result.2.protocol = sender.protocol
  ends : Ends result.1 result.2
  bounds : InBounds result.1

variable {first : List Action}

theorem InBounds.append (h : InBounds first) (h' : InBounds second) :
    InBounds (first ++ second) :=
  fun progress hp => (mem_append.mp hp).elim (h progress) (h' progress)

theorem Ends.append (h : ∀ result, .finished result ∉ first)
    (h' : Ends second sender) : Ends (first ++ second) sender := by
  obtain ⟨hs, hnone⟩ | ⟨hs, before, result, rfl, hbefore, hok⟩ := h'
  · exact .inl ⟨hs, by simp [h, hnone]⟩
  · exact .inr ⟨hs, first ++ before, result, by simp, by simp [h, hbefore], hok⟩

theorem Fits.update {stage : Stage} (h : sender.Fits current stage) (retries deadline : Nat)
    (lastCan initialProgressEmitted : Bool) :
    ({ sender with retries, deadline, lastCan, initialProgressEmitted } : Sender).Fits current stage := by
  cases stage
  case start | headerAck => exact h
  case dataStart =>
    obtain ⟨file, ha, hu⟩ := h
    exact ⟨file, { ha with }, hu⟩
  case dataAck =>
    obtain ⟨file, data, ha, hp⟩ := h
    exact ⟨file, data, { ha with },
      { hp with }⟩
  case eotAck =>
    obtain ⟨file, ha, he⟩ := h
    exact ⟨file, { ha with }, he⟩
  case batchAck | done => exact h

theorem Valid.update (h : sender.Valid log) (retries deadline : Nat)
    (lastCan initialProgressEmitted : Bool) :
    ({ sender with retries, deadline, lastCan, initialProgressEmitted } : Sender).Valid log :=
  { h with stage := h.stage.update retries deadline lastCan initialProgressEmitted }

-- The invariant is about the acknowledged packets.
theorem Valid.sent (h : sender.Valid log) (sent : Bytes) : sender.Valid { log with sent } :=
  { h with }

variable {crc : Bool}

@[simp]
theorem isDone_iff : sender.isDone = true ↔ sender.stage = .done :=
  decide_eq_true_iff

section Functions

variable {log : Log}

theorem Leaves.of_sends (hv : sender'.Valid log) (hf : sender'.files = sender.files)
    (hp : sender'.protocol = sender.protocol) (hs : sender'.stage ≠ .done)
    (ha : ∀ action ∈ actions, ∃ bytes, action = .send bytes) :
    Leaves sender (actions, sender') log := by
  refine ⟨hv, hf, hp, .inl ⟨hs, fun result hmem => ?_⟩, fun progress hmem => ?_⟩
  · simpa using ha _ hmem
  · simpa using ha _ hmem

theorem Leaves.refl (h : sender.Valid log) (hs : sender.stage ≠ .done) : Leaves sender ([], sender) log :=
  .of_sends h rfl rfl hs (by simp)

-- What is left does not depend on the other fields.
theorem Leaves.of_eq (h : Leaves sender' result log) (hf : sender'.files = sender.files)
    (hp : sender'.protocol = sender.protocol) : Leaves sender result log :=
  { h with files := h.files.trans hf, protocol := h.protocol.trans hp }

theorem Acked.index_lt (h : sender.Acked file current) : sender.fileIndex < sender.files.length :=
  (List.getElem?_eq_some_iff.mp h.found).1

theorem Acked.isBegun (h : sender.Acked file current)
    (hf : sender.files[sender.fileIndex]? = some file') :
    IsBegun sender.protocol file' current := by
  obtain rfl : file = file' := Option.some.inj (h.found.symm.trans hf)
  obtain ⟨crc, cells, hcurrent, htake, hlength, -⟩ := h.acks
  exact .inr ⟨crc, cells, sender.offset, hcurrent, h.offset_le, htake, hlength⟩

-- Nothing of the file has been acknowledged, or the blocks up to the offset.
theorem Valid.acked (h : sender.Valid log) (hs : sender.stage ≠ .done) :
    sender.offset = 0 ∧ (∀ file, sender.files[sender.fileIndex]? = some file → log.current = []) ∨
      ∃ file, sender.Acked file log.current := by
  have hfits := h.stage
  cases hstage : sender.stage <;> rw [hstage] at hfits
  case start => exact .inl ⟨hfits.2.1, fun _ _ => hfits.1⟩
  case headerAck => exact .inl ⟨hfits.2.2.1, fun _ _ => hfits.2.1⟩
  case dataStart => exact .inr ⟨_, hfits.choose_spec.1⟩
  case dataAck => exact .inr ⟨_, hfits.choose_spec.choose_spec.1⟩
  case eotAck => exact .inr ⟨_, hfits.choose_spec.1⟩
  case batchAck => exact .inl ⟨hfits.2, by simp [hfits.1]⟩
  case done => exact absurd hstage hs

theorem Valid.isBegun (h : sender.Valid log) (hf : sender.files[sender.fileIndex]? = some file) :
    IsBegun sender.protocol file log.current := by
  by_cases hs : sender.stage = .done
  case pos =>
    have hfits := h.stage
    rw [hs] at hfits
    exact hfits file hf
  case neg =>
    obtain ⟨-, hc⟩ | ⟨file', ha⟩ := h.acked hs
    · exact .inl (hc file hf)
    · exact ha.isBegun hf

-- A valid sender may give up.
theorem Valid.done (h : sender.Valid log) : ({ sender with stage := .done } : Sender).Valid log :=
  { h with stage := fun _ hf => h.isBegun hf }

theorem fail_leaves (h : ({ sender with stage := .done } : Sender).Valid log) (hs : sender.stage ≠ .done) :
    Leaves sender (sender.fail error) log := by
  rw [fail, if_neg (by simpa using hs)]
  refine ⟨{ h with }, rfl, rfl, ?_, by simp [InBounds]⟩
  exact .inr ⟨rfl, [.send (replicate 8 can)], .error error, rfl, by simp, by simp⟩

theorem retry_leaves (h : sender.Valid log) (hs : sender.stage ≠ .done) :
    Leaves sender (sender.retry now error) log := by
  rw [retry]
  split
  case isTrue => exact fail_leaves h.done hs
  case isFalse => exact .of_sends (h.update _ _ _ _) rfl rfl hs (by split <;> simp)

theorem sum_take_add_le (h : files[index]? = some file) :
    ((files.take index).map File.size).sum + file.size ≤ (files.map File.size).sum := by
  obtain ⟨hlt, heq⟩ := List.getElem?_eq_some_iff.mp h
  have hsplit : files = files.take index ++ file :: files.drop (index + 1) := by
    rw [← heq, ← drop_eq_getElem_cons hlt, take_append_drop]
  conv => rhs; rw [hsplit]
  rw [map_append, sum_append, map_cons, sum_cons]
  omega

-- The next block or the end of the file, once the blocks before it have been acknowledged.
theorem nextData_leaves (h : ({ sender with stage := .done } : Sender).Valid log)
    (ha : sender.Acked file log.current) (hu : sender.unread = file.content.drop sender.offset)
    (hs : sender.stage ≠ .done) : Leaves sender (sender.nextData now) log := by
  have hread := ha.read
  have hoffset := ha.offset_le
  rw [nextData, ha.found]
  dsimp only
  split
  case isTrue hzero =>
    refine .of_sends { h with stage := ?_ } rfl rfl (by simp) (by simp)
    exact ⟨file, { ha with }, by dsimp only; omega, rfl⟩
  case isFalse hpos =>
    generalize hblock : (if sender.protocol = .ymodem ∧ 128 < file.size - sender.offset then 1024 else 128) =
      blockSize
    have hblockpos : 0 < blockSize := by rw [← hblock]; split <;> decide
    split
    case isTrue => exact fail_leaves h hs
    case isFalse hlong =>
      have hlength : (sender.unread.take (min (file.size - sender.offset) blockSize)).length =
          min (file.size - sender.offset) blockSize := length_take_of_le (Nat.le_of_not_lt hlong)
      rw [hu, length_drop] at hlong
      refine .of_sends { h with stage := ?_ } rfl rfl (by simp) (by simp)
      refine ⟨file, _, { ha with }, ⟨?_, ?_, ?_, ?_, ?_, rfl, ?_⟩⟩ <;> dsimp only
      case refine_4 => rw [List.take_left' hlength, hu]
      case refine_5 =>
        intro hmore
        rw [length_append, hlength, length_replicate]
        omega
      case refine_6 => rw [hu, drop_drop]
      all_goals omega

theorem Acked.initial (hf : sender.files[sender.fileIndex]? = some file)
    (ho : sender.offset = 0) (hs : sender.sequence = 1)
    (hc : current = introduction sender.protocol file crc) : sender.Acked file current :=
  ⟨hf, ⟨crc, [], by simp [hc, blocks], by simp [ho], by simp [ho, payloads], hs⟩, by simp [ho], by simp [ho]⟩

theorem startFile_leaves (h : sender.Valid log) (hs : sender.stage = .start) :
    Leaves sender (sender.startFile now crc) log := by
  have hfits := h.stage
  rw [hs] at hfits
  obtain ⟨hcurrent, hoffset, hsequence, -, hunread, hindex⟩ := hfits
  rw [startFile]
  split
  case h_1 hprotocol =>
    have hfound := getElem?_eq_getElem (hindex hprotocol)
    refine .of_eq (nextData_leaves { h with stage := h.done.stage } (@Acked.initial _ _ _ crc hfound hoffset
      hsequence ?_) ?_ (by simp [hs])) rfl rfl
    · rw [hcurrent, hprotocol]
      rfl
    · simpa [hoffset] using hunread _ hfound
  case h_2 hprotocol =>
    split
    case h_1 file hfound =>
      refine .of_sends { h with stage := ?_ } rfl rfl (by simp) (by simp)
      exact ⟨hprotocol, hcurrent, hoffset, hsequence, file, crc, hfound, hunread file hfound, rfl⟩
    case h_2 hnone =>
      refine .of_sends { h with stage := ?_ } rfl rfl (by simp) (by simp)
      exact ⟨Nat.le_antisymm h.index (List.getElem?_eq_none_iff.mp hnone), hoffset⟩

theorem Acked.block (ha : sender.Acked file current) (hp : sender.Pending file data) :
    Acked sender.advance file (current ++ [sender.lastPacket]) := by
  obtain ⟨crc, cells, hcurrent, htake, hlength, hsequence⟩ := ha.acks
  have hpositive := hp.positive
  have hwithin := hp.within
  have hlength := hlength (by omega)
  refine ⟨ha.found, ⟨crc, cells ++ [(data, sender.crc)], ?_, ?_, ?_, ?_⟩, hp.within, hp.read⟩
  · rw [hcurrent, blocks_append, hp.last, hsequence, append_assoc]
    rfl
  · dsimp only [advance]
    rw [payloads_append, ← hlength, take_length_add_append, hp.payload, take_add, hlength,
      ← htake, ← hlength, take_length]
  · intro hmore
    dsimp only [advance] at hmore ⊢
    rw [payloads_append, length_append, hlength, hp.full hmore]
  · dsimp only [advance]
    rw [hsequence, length_append, length_singleton]
    exact (UInt8.ofNat_add _ 1).symm

theorem ackData_leaves (h : sender.Valid log) (hs : sender.stage = .dataAck)
    (ha : sender.Acked file log.current) (hp : sender.Pending file data) :
    Leaves sender (sender.ackData now) { log with current := log.current ++ [sender.lastPacket] } := by
  have haccepted : sender.advance.acceptedBytes =
      ((sender.files.take sender.fileIndex).map File.size).sum + (sender.offset + sender.pendingBytes) := by
    rw [advance]
    dsimp only
    rw [h.accepted]
    omega
  obtain ⟨hv, hf, hpr, he, hb⟩ := @nextData_leaves sender.advance _ now
    { log with current := log.current ++ [sender.lastPacket] }
    { h with accepted := haccepted, stage := fun _ => (ha.block hp).isBegun } (ha.block hp) hp.unread
    (by simp [advance, hs])
  refine ⟨hv, hf, hpr, @Ends.append _ [_] _ (by simp) he, @InBounds.append [_] _ ?_ hb⟩
  intro progress hmem
  cases mem_singleton.mp hmem
  have hsum := sum_take_add_le ha.found
  have hwithin := hp.within
  have htotal := h.total
  refine ⟨?_, h.index⟩
  rw [Sender.progress, haccepted]
  dsimp only [advance]
  omega

theorem ackEot_leaves (h : sender.Valid log) (ha : sender.Acked file log.current)
    (ho : sender.offset = file.size) (hl : sender.lastPacket = [eot]) :
    Leaves sender (sender.ackEot now)
      { log with complete := log.complete ++ [log.current ++ [sender.lastPacket]], current := [] } := by
  have hlt := ha.index_lt
  have htake : sender.files.take (sender.fileIndex + 1) = sender.files.take sender.fileIndex ++ [file] := by
    rw [take_add_one, ha.found]
    rfl
  have hfile : IsComplete sender.protocol file (log.current ++ [sender.lastPacket]) := by
    obtain ⟨crc, cells, hcurrent, hpayload, -, -⟩ := ha.acks
    exact ⟨crc, cells, by rw [hcurrent, hl], ho ▸ ha.read, ho ▸ hpayload⟩
  have hcomplete : List.Forall₂ (IsComplete sender.protocol) (sender.files.take (sender.fileIndex + 1))
      (log.complete ++ [log.current ++ [sender.lastPacket]]) := by
    rw [htake]
    exact rel_append h.complete (.cons hfile .nil)
  have haccepted : sender.acceptedBytes =
      ((sender.files.take (sender.fileIndex + 1)).map File.size).sum + 0 := by
    simp [h.accepted, htake, ho]
  have hbounds : sender.acceptedBytes ≤ sender.totalBytes ∧ sender.fileIndex + 1 ≤ sender.files.length := by
    have hsum := sum_take_add_le ha.found
    have haccepted := h.accepted
    have htotal := h.total
    exact ⟨by omega, hlt⟩
  rw [ackEot]
  split
  case h_1 hprotocol =>
    refine ⟨⟨hlt, hcomplete, haccepted, h.total, h.single, fun _ _ => .inl rfl⟩, rfl, rfl, ?_, ?_⟩
    · refine .inr ⟨rfl, [_], .ok (), rfl, by simp, fun _ => ?_⟩
      have hone := h.single hprotocol
      dsimp only [nextFile]
      omega
    · simpa [InBounds, Sender.progress, nextFile] using hbounds
  case h_2 hprotocol =>
    refine ⟨⟨hlt, hcomplete, haccepted, h.total, h.single, rfl, rfl, rfl, rfl, ?_, ?_⟩, rfl, rfl,
      .inl ⟨by simp, by simp⟩, ?_⟩
    · intro next hnext
      dsimp only [nextFile] at hnext ⊢
      rw [hnext]
      rfl
    · simp [nextFile, hprotocol]
    · simpa [InBounds, Sender.progress, nextFile] using hbounds

theorem packet_crc (sequence : UInt8) (data : Bytes) :
    (packet sequence data false).dropLast ++ crcBytes ((packet sequence data false).dropLast.drop 3) =
      packet sequence data true := by
  have hdrop : (packet sequence data false).dropLast =
      [if data.length = 1024 then stx else soh, sequence, ~~~sequence] ++ data := by
    rw [packet, if_neg Bool.false_ne_true, dropLast_concat]
  rw [hdrop]
  rfl

theorem Pending.switchToCrc (hp : sender.Pending file data) :
    sender.switchToCrc.Pending file data := by
  rw [Sender.switchToCrc]
  split
  case isTrue => exact hp
  case isFalse hcrc =>
    refine { hp with last := ?_ }
    rw [hp.last, Bool.eq_false_iff.mpr hcrc, packet_crc]

theorem switchToCrc_valid (h : sender.Valid log) (hs : sender.stage = .dataAck)
    (ha : sender.Acked file log.current) (hp : sender.Pending file data) :
    sender.switchToCrc.Valid log ∧ sender.switchToCrc.stage = .dataAck ∧
      sender.switchToCrc.files = sender.files ∧ sender.switchToCrc.protocol = sender.protocol := by
  have hpending := hp.switchToCrc
  rw [Sender.switchToCrc] at hpending ⊢
  split
  case isTrue => exact ⟨h, hs, rfl, rfl⟩
  case isFalse hcrc =>
    rw [if_neg hcrc] at hpending
    refine ⟨{ h with stage := ?_ }, hs, rfl, rfl⟩
    exact Eq.mpr (congrArg (Fits _ log.current) hs)
      ⟨file, data, { ha with }, hpending⟩

-- What a byte makes a sender do. Only the acknowledgements are logged.
inductive Response (sender : Sender) (now : Nat) (byte : UInt8) : List Action × Sender → Prop
  | ignored : (∀ log, Log.receive log sender byte = log) → Response sender now byte ([], sender)
  | failed {error : TransferError} : (∀ log, Log.receive log sender byte = log) →
    Response sender now byte (sender.fail error)
  | retried : (∀ log, Log.receive log sender byte = log) →
    Response sender now byte (sender.retry now .retryLimit)
  | started {crc : Bool} : sender.stage = .start → Response sender now byte (sender.startFile now crc)
  | introduced : sender.stage = .headerAck → byte = ack → Response sender now byte ([], { sender with
      stage := .dataStart, retries := 0, deadline := now + sender.options.handshakeTimeout })
  | requested {crc : Bool} : sender.stage = .dataStart →
    Response sender now byte (({ sender with crc, retries := 0 } : Sender).nextData now)
  | acked : sender.stage = .dataAck → byte = ack → Response sender now byte (sender.ackData now)
  | switched : sender.stage = .dataAck → byte ≠ ack →
    Response sender now byte (sender.switchToCrc.retry now .retryLimit)
  | ended : sender.stage = .eotAck → byte = ack → Response sender now byte (sender.ackEot now)
  | completed : sender.stage = .batchAck →
    Response sender now byte ([.finished (.ok ())], { sender with stage := .done })

theorem respond_response (hs : sender.stage ≠ .done) :
    Response sender now byte (sender.respond now byte) := by
  have hother : byte ≠ ack → ∀ log, Log.receive log sender byte = log := fun h _ => if_neg h
  rw [respond]
  cases hstage : sender.stage <;> dsimp only
  case start =>
    have hlog : ∀ log, Log.receive log sender byte = log := by simp [Log.receive, hstage]
    split_ifs
    · exact .started hstage
    · exact .failed hlog
    · exact .ignored hlog
  case headerAck =>
    split_ifs with hack
    · exact .introduced hstage hack
    · exact .retried (hother hack)
    · exact .ignored (hother hack)
  case dataStart =>
    have hlog : ∀ log, Log.receive log sender byte = log := by simp [Log.receive, hstage]
    split_ifs
    · exact .failed hlog
    · exact hstage ▸ .requested hstage
    · exact .ignored hlog
  case dataAck =>
    split_ifs with hack
    · exact .acked hstage hack
    · exact .retried (hother hack)
    · exact .switched hstage hack
    · exact .ignored (hother hack)
  case eotAck =>
    split_ifs with hnak hack
    · exact .retried (hother (by rw [hnak]; decide))
    · exact .ended hstage hack
    · exact .ignored (hother hack)
  case batchAck =>
    have hlog : ∀ log, Log.receive log sender byte = log := by simp [Log.receive, hstage]
    split_ifs
    · exact .completed hstage
    · exact .retried hlog
    · exact .ignored hlog
  case done => exact absurd hstage hs

theorem respond_leaves (h : sender.Valid log) (hsent : sender.Sent log.sent) (hs : sender.stage ≠ .done) :
    Leaves sender (sender.respond now byte) (log.receive sender byte) := by
  have hfits := h.stage
  have hr := @respond_response sender now byte hs
  generalize sender.respond now byte = result at hr ⊢
  cases hr
  case ignored hlog => rw [hlog]; exact .refl h hs
  case failed hlog => rw [hlog]; exact fail_leaves h.done hs
  case retried hlog => rw [hlog]; exact retry_leaves h hs
  all_goals
    rename sender.stage = _ => hstage
    rw [hstage] at hfits
    simp only [Log.receive, ite_self, ↓reduceIte, *]
  case started => exact startFile_leaves h hstage
  case introduced =>
    obtain ⟨hprotocol, hcurrent, hoffset, hsequence, file, crc, hfound, hunread, hlast⟩ := hfits
    refine .of_sends { h with stage := ?_ } rfl rfl (by simp) (by simp)
    refine ⟨file, @Acked.initial _ _ _ crc hfound hoffset hsequence ?_, ?_⟩
    · simp [hcurrent, hsent (hlast ▸ packet_ne_nil), hlast, hprotocol, introduction]
    · simp [hoffset, hunread]
  case requested =>
    obtain ⟨file, ha, hunread⟩ := hfits
    exact .of_eq (nextData_leaves { h with stage := h.done.stage } { ha with } hunread (by simp)) rfl rfl
  case acked =>
    obtain ⟨file, data, ha, hp⟩ := hfits
    rw [hsent (hp.last ▸ packet_ne_nil)]
    exact ackData_leaves (h.sent sender.lastPacket) hstage ha hp
  case switched =>
    obtain ⟨file, data, ha, hp⟩ := hfits
    obtain ⟨hv, hst, hf, hpr⟩ := switchToCrc_valid h hstage ha hp
    exact .of_eq (retry_leaves hv (by simp [hst])) hf hpr
  case ended =>
    obtain ⟨file, ha, hoffset, hlast⟩ := hfits
    rw [hsent (by simp [hlast])]
    exact ackEot_leaves (h.sent sender.lastPacket) ha hoffset hlast
  case completed =>
    refine ⟨h.done, rfl, rfl, ?_, by simp [InBounds]⟩
    exact .inr ⟨rfl, [], .ok (), rfl, by simp, fun _ => hfits.1⟩

theorem receive_leaves (h : sender.Valid log) (hsent : sender.Sent log.sent) (hs : sender.stage ≠ .done) :
    Leaves sender (sender.receive now byte) (log.receive sender byte) := by
  rw [receive]
  split
  case isTrue hcan =>
    rw [show log.receive sender byte = log from if_neg (by rw [hcan]; decide)]
    split
    case isTrue =>
      have hfail := @fail_leaves sender log .remoteCancelled h.done hs
      exact { hfail with valid := hfail.valid.update _ _ _ _ }
    case isFalse => exact .of_sends (h.update _ _ _ _) rfl rfl hs (by simp)
  case isFalse =>
    exact .of_eq
      (@respond_leaves { sender with lastCan := false } now log byte (h.update _ _ _ _) hsent hs) rfl rfl

theorem sum_take_le (files : List File) (index : Nat) :
    ((files.take index).map File.size).sum ≤ (files.map File.size).sum := by
  conv => rhs; rw [← take_append_drop index files, map_append, sum_append]
  exact Nat.le_add_right _ _

theorem accepted_le (h : sender.Valid log) (hs : sender.stage ≠ .done) :
    sender.acceptedBytes ≤ sender.totalBytes := by
  rw [h.accepted, h.total]
  obtain ⟨ho, -⟩ | ⟨file, ha⟩ := h.acked hs
  · rw [ho]
    exact sum_take_le _ _
  · exact Nat.le_trans (Nat.add_le_add_left ha.offset_le _) (sum_take_add_le ha.found)

theorem initialProgress_leaves (h : sender.Valid log) (hs : sender.stage ≠ .done) :
    Leaves sender sender.initialProgress log := by
  rw [initialProgress]
  split
  case isTrue => exact .refl h hs
  case isFalse =>
    refine ⟨h.update _ _ _ _, rfl, rfl, .inl ⟨hs, by simp⟩, ?_⟩
    simpa [InBounds, Sender.progress] using ⟨accepted_le h hs, h.index⟩

end Functions

section Sent

variable {sent : Bytes}

theorem nextData_cases : sender.nextData now = ([], sender) ∧ sender.files[sender.fileIndex]? = none ∨
    sender.nextData now = ({ sender with stage := .eotAck } : Sender).send [eot] now ∨
    sender.nextData now = sender.fail .readFailed ∨
    ∃ size block, sender.nextData now = ({ sender with
      pendingBytes := size, stage := .dataAck,
      unread := sender.unread.drop size } : Sender).send block now := by
  rw [nextData]
  split
  case h_1 hnone => exact .inl ⟨rfl, hnone⟩
  case h_2 file hfound =>
    dsimp only
    generalize (if sender.protocol = .ymodem ∧ 128 < file.size - sender.offset then 1024 else 128) = blockSize
    split
    · exact .inr (.inl rfl)
    · split
      · exact .inr (.inr (.inl rfl))
      · exact .inr (.inr (.inr ⟨_, _, rfl⟩))

theorem fail_last (hs : sender.stage ≠ .done) : (sender.fail error).2.lastPacket = [] := by
  rw [fail, if_neg (by simpa using hs)]

theorem retry_sent (hs : sender.stage ≠ .done) :
    (sender.retry now error).2.Sent ((sender.retry now error).1.foldl Action.sent sent) := by
  intro hne
  rw [retry] at hne ⊢
  split at hne
  case isTrue => exact absurd (fail_last hs) hne
  case isFalse hmax =>
    rw [if_neg hmax, if_neg hne]
    rfl

theorem nextData_sent (h : sender.Sent sent) (hs : sender.stage ≠ .done) :
    (sender.nextData now).2.Sent ((sender.nextData now).1.foldl Action.sent sent) := by
  obtain ⟨heq, -⟩ | heq | heq | ⟨size, block, heq⟩ := @nextData_cases sender now
  all_goals rw [heq]
  · exact h
  · exact fun _ => rfl
  · exact fun hne => absurd (fail_last hs) hne
  · exact fun _ => rfl

theorem startFile_sent (h : sender.Sent sent) (hs : sender.stage ≠ .done) :
    (sender.startFile now crc).2.Sent ((sender.startFile now crc).1.foldl Action.sent sent) := by
  rw [startFile]
  split
  case h_1 => exact @nextData_sent { sender with crc, retries := 0 } now sent h hs
  case h_2 => split <;> exact fun _ => rfl

theorem respond_sent (h : sender.Sent sent) (hs : sender.stage ≠ .done) :
    (sender.respond now byte).2.Sent ((sender.respond now byte).1.foldl Action.sent sent) := by
  have hr := @respond_response sender now byte hs
  generalize sender.respond now byte = result at hr ⊢
  cases hr
  case failed => exact fun hne => absurd (fail_last hs) hne
  case retried => exact retry_sent hs
  case started => exact startFile_sent h hs
  case requested crc _ => exact @nextData_sent { sender with crc, retries := 0 } now sent h hs
  case acked => exact @nextData_sent sender.advance now sent h hs
  case switched => exact retry_sent (by rw [switchToCrc]; split <;> exact hs)
  case ended =>
    rw [ackEot]
    split <;> exact fun hne => absurd rfl hne
  all_goals exact h

theorem receive_sent (h : sender.Sent sent) (hs : sender.stage ≠ .done) :
    (sender.receive now byte).2.Sent ((sender.receive now byte).1.foldl Action.sent sent) := by
  rw [receive]
  split
  case isTrue =>
    split
    · exact fun hne => absurd (fail_last hs) hne
    · exact h
  case isFalse => exact @respond_sent { sender with lastCan := false } now sent byte h hs

end Sent

section Run

variable {log : Log}

theorem Leaves.follow (h : Leaves sender result log')
    (hgo : result.2.stage ≠ .done → Leaves result.2 result' log'')
    (hend : result.2.stage = .done → result' = ([], result.2) ∧ log'' = log') :
    Leaves sender (result.1 ++ result'.1, result'.2) log'' := by
  by_cases hs : result.2.stage = .done
  case pos =>
    obtain ⟨rfl, rfl⟩ := hend hs
    rw [append_nil]
    exact h
  case neg =>
    obtain ⟨hv, hf, hp, he, hb⟩ := hgo hs
    obtain ⟨-, hnone⟩ | ⟨hdone, -⟩ := h.ends
    · exact ⟨hv, hf.trans h.files, hp.trans h.protocol, he.append hnone, h.bounds.append hb⟩
    · exact absurd hdone hs

theorem receiveAll_done (h : sender.stage = .done) (input : Bytes) :
    sender.receiveAll now input = ([], sender) ∧ log.receiveAll sender now input = log := by
  cases input <;> simp [receiveAll, Log.receiveAll, h]

theorem Leaves.note (h : Leaves sender result log) (actions : List Action) :
    Leaves sender result (log.note actions) :=
  { h with valid := h.valid.sent _ }

@[simp]
theorem log_receive_sent : (log.receive sender byte).sent = log.sent := by
  rw [Log.receive]
  split <;> [split; skip] <;> rfl

theorem receive_note_sent (h : sender.Sent log.sent) (hs : sender.stage ≠ .done) :
    (sender.receive now byte).2.Sent
      ((log.receive sender byte).note (sender.receive now byte).1).sent := by
  rw [Log.note, log_receive_sent]
  exact receive_sent h hs

theorem receiveAll_sent (input : Bytes) (sender : Sender) (log : Log) (h : sender.Sent log.sent) :
    (sender.receiveAll now input).2.Sent (log.receiveAll sender now input).sent := by
  induction input generalizing sender log
  case nil => exact h
  case cons byte input ih =>
    by_cases hs : sender.stage = .done
    · rw [(@receiveAll_done _ _ log hs _).1, (@receiveAll_done _ now log hs _).2]
      exact h
    · simp only [receiveAll, Log.receiveAll, isDone_iff, hs, ↓reduceIte]
      exact ih _ _ (receive_note_sent h hs)

theorem receiveAll_leaves (input : Bytes) (sender : Sender) (log : Log) (h : sender.Valid log)
    (hsent : sender.Sent log.sent) (hs : sender.stage ≠ .done) :
    Leaves sender (sender.receiveAll now input) (log.receiveAll sender now input) := by
  induction input generalizing sender log
  case nil => exact .refl h hs
  case cons byte input ih =>
    simp only [receiveAll, Log.receiveAll, isDone_iff, hs, ↓reduceIte]
    have hstep := (@receive_leaves sender now log byte h hsent hs).note (sender.receive now byte).1
    exact hstep.follow (fun hgo => ih _ _ hstep.valid (receive_note_sent hsent hs) hgo)
      (fun hend => receiveAll_done hend input)

@[simp]
theorem initialProgress_stage : sender.initialProgress.2.stage = sender.stage := by
  rw [initialProgress]
  split <;> rfl

theorem initialProgress_last : sender.initialProgress.2.lastPacket = sender.lastPacket := by
  rw [initialProgress]
  split <;> rfl

theorem initialProgress_sent (h : sender.Sent sent) : sender.initialProgress.2.Sent sent := by
  rw [Sent, initialProgress_last]
  exact h

theorem foldl_sent_initialProgress : sender.initialProgress.1.foldl Action.sent sent = sent := by
  rw [initialProgress]
  split <;> rfl

theorem react_sent (event : Event) (h : sender.Sent log.sent) (hs : sender.stage ≠ .done) :
    (sender.react event).2.Sent (log.react sender event).sent := by
  have hfirst := initialProgress_sent h
  cases event
  case feed input now =>
    simp only [react, feed, Log.react, isDone_iff, hs, ↓reduceIte]
    exact receiveAll_sent input _ _ hfirst
  case tick now =>
    simp only [react, tick, Log.react, Log.note, isDone_iff, hs, ↓reduceIte, foldl_append,
      foldl_sent_initialProgress]
    split
    · exact retry_sent (by simpa using hs)
    · exact hfirst
  case cancel => exact fun hne => absurd (fail_last hs) hne

theorem react_leaves (event : Event) (h : sender.Valid log) (hsent : sender.Sent log.sent)
    (hs : sender.stage ≠ .done) :
    Leaves sender (sender.react event) (log.react sender event) := by
  have hfirst := initialProgress_leaves h hs
  cases event
  case feed input now =>
    simp only [react, feed, Log.react, isDone_iff, hs, ↓reduceIte]
    exact hfirst.follow (receiveAll_leaves input _ _ hfirst.valid (initialProgress_sent hsent))
      (by simp [hs])
  case tick now =>
    simp only [react, tick, Log.react, isDone_iff, hs, ↓reduceIte]
    refine (hfirst.follow (fun hgo => ?_) (by simp [hs])).note _
    split
    · exact retry_leaves hfirst.valid hgo
    · exact .refl hfirst.valid hgo
  case cancel => exact (fail_leaves h.done hs).note _

theorem react_done (h : sender.stage = .done) (event : Event) :
    sender.react event = ([], sender) ∧ log.react sender event = log := by
  cases event <;> simp [react, feed, tick, cancel, fail, Log.react, Log.note, h]

theorem run_done (h : sender.stage = .done) (events : List Event) :
    sender.run events = ([], sender) ∧ log.run sender events = log := by
  induction events
  case nil => exact ⟨rfl, rfl⟩
  case cons event events ih => simp [run, Log.run, @react_done sender log h event, ih]

theorem run_leaves (events : List Event) (sender : Sender) (log : Log) (h : sender.Valid log)
    (hsent : sender.Sent log.sent) (hs : sender.stage ≠ .done) :
    Leaves sender (sender.run events) (log.run sender events) := by
  induction events generalizing sender log
  case nil => exact .refl h hs
  case cons event events ih =>
    have hstep := react_leaves event h hsent hs
    exact hstep.follow (fun hgo => ih _ _ hstep.valid (react_sent event hsent hs) hgo)
      (fun hend => run_done hend events)

theorem run_sent (events : List Event) (sender : Sender) (log : Log) (h : sender.Sent log.sent) :
    (sender.run events).2.Sent (log.run sender events).sent := by
  induction events generalizing sender log
  case nil => exact h
  case cons event events ih =>
    refine ih _ _ ?_
    by_cases hs : sender.stage = .done
    · rw [(@react_done _ log hs event).1, (@react_done _ log hs event).2]
      exact h
    · exact react_sent event h hs

variable {protocol : Protocol}

theorem checkFiles_total (h : checkFiles lower protocol files names start = .ok total) :
    total = start + (files.map File.size).sum := by
  induction files generalizing names start
  case nil => cases h; rfl
  case cons file files ih =>
    rw [checkFiles] at h
    split at h
    case isTrue => cases h
    split at h
    case isTrue => cases h
    rw [ih h, map_cons, sum_cons]
    omega

theorem new_valid {options : Options}
    (h : new lower protocol files options = .ok sender) :
    sender.Valid .empty ∧ sender.stage = .start ∧ sender.files = files ∧ sender.protocol = protocol := by
  rw [new] at h
  split_ifs at h with hnil hsingle hoptions
  cases hcheck : checkFiles lower protocol files [] 0
  case error => rw [hcheck] at h; cases h
  case ok total =>
    rw [hcheck] at h
    cases h
    have hlength : protocol = .xmodem → files.length = 1 :=
      fun hp => not_not.mp fun hne => hsingle ⟨hp, hne⟩
    refine ⟨⟨Nat.zero_le _, .nil, rfl, ?_, hlength, ?_⟩, rfl, rfl, rfl⟩
    · dsimp only
      rw [checkFiles_total hcheck, Nat.zero_add]
    · refine ⟨rfl, rfl, rfl, rfl, ?_, fun _ => length_pos_of_ne_nil hnil⟩
      intro file hfile
      rw [head?_eq_getElem?, hfile]
      rfl

end Run

section Chunks

-- The chunks of some input, at the same time.
def feedAll (sender : Sender) (now : Nat) : List Bytes → List Action × Sender
  | [] => ([], sender)
  | chunk :: chunks =>
    let later := (sender.feed chunk now).2.feedAll now chunks
    ((sender.feed chunk now).1 ++ later.1, later.2)

@[simp]
theorem fail_emitted : (sender.fail error).2.initialProgressEmitted = sender.initialProgressEmitted := by
  rw [fail]
  split <;> rfl

@[simp]
theorem retry_emitted : (sender.retry now error).2.initialProgressEmitted =
    sender.initialProgressEmitted := by
  rw [retry]
  split <;> simp

@[simp]
theorem nextData_emitted : (sender.nextData now).2.initialProgressEmitted =
    sender.initialProgressEmitted := by
  obtain ⟨h, -⟩ | h | h | ⟨size, block, h⟩ := @nextData_cases sender now <;> simp [h, send]

theorem respond_emitted (hs : sender.stage ≠ .done) :
    (sender.respond now byte).2.initialProgressEmitted = sender.initialProgressEmitted := by
  have hr := @respond_response sender now byte hs
  generalize sender.respond now byte = result at hr ⊢
  cases hr
  case started => rw [startFile]; split <;> [skip; split] <;> simp [send]
  case switched => rw [retry_emitted, switchToCrc]; split <;> rfl
  case ended => rw [ackEot]; split <;> rfl
  all_goals simp [ackData, advance]

theorem receive_emitted (hs : sender.stage ≠ .done) :
    (sender.receive now byte).2.initialProgressEmitted = sender.initialProgressEmitted := by
  rw [receive]
  split
  case isTrue => split <;> simp
  case isFalse => exact respond_emitted hs

theorem receiveAll_emitted (input : Bytes) (sender : Sender) :
    (sender.receiveAll now input).2.initialProgressEmitted = sender.initialProgressEmitted := by
  induction input generalizing sender
  case nil => rfl
  case cons byte input ih =>
    rw [receiveAll]
    split
    case isTrue => rfl
    case isFalse hd => exact (ih _).trans (receive_emitted (by simpa using hd))

theorem receiveAll_append (first second : Bytes) (sender : Sender) :
    sender.receiveAll now (first ++ second) =
      ((sender.receiveAll now first).1 ++ ((sender.receiveAll now first).2.receiveAll now second).1,
        ((sender.receiveAll now first).2.receiveAll now second).2) := by
  induction first generalizing sender
  case nil => rfl
  case cons byte first ih =>
    rw [cons_append, receiveAll, receiveAll]
    split
    case isTrue hd => rw [(@receiveAll_done sender now .empty (isDone_iff.mp hd) second).1]; rfl
    rw [ih]
    rw [append_assoc]

theorem initialProgress_emitted : sender.initialProgress.2.initialProgressEmitted = true := by
  rw [initialProgress]
  split
  case isTrue h => exact h
  case isFalse => rfl

theorem feed_append (first second : Bytes) (sender : Sender) :
    sender.feed (first ++ second) now =
      ((sender.feed first now).1 ++ ((sender.feed first now).2.feed second now).1,
        ((sender.feed first now).2.feed second now).2) := by
  by_cases hd : sender.isDone = true
  case pos =>
    have hfeed : ∀ input, sender.feed input now = ([], sender) := fun input => if_pos hd
    rw [hfeed, hfeed, hfeed]
    rfl
  case neg =>
    have hfeed : ∀ input, sender.feed input now =
        (sender.initialProgress.1 ++ (sender.initialProgress.2.receiveAll now input).1,
          (sender.initialProgress.2.receiveAll now input).2) := fun input => if_neg hd
    have hagain : ∀ s : Sender, s.initialProgressEmitted = true →
        s.feed second now = s.receiveAll now second := by
      intro s hs
      rw [feed]
      split
      case isTrue hdone => exact (@receiveAll_done s now .empty (isDone_iff.mp hdone) second).1.symm
      have hnone : s.initialProgress = ([], s) := if_pos hs
      rw [hnone]
      rfl
    rw [hfeed, hfeed first, receiveAll_append]
    rw [hagain _ ((receiveAll_emitted first _).trans initialProgress_emitted), append_assoc]

theorem feedAll_eq (chunks : List Bytes) (sender : Sender) (h : chunks ≠ []) :
    sender.feedAll now chunks = sender.feed chunks.flatten now := by
  induction chunks generalizing sender
  case nil => exact absurd rfl h
  case cons chunk chunks ih =>
    rw [feedAll, flatten_cons]
    cases chunks
    case nil =>
      rw [flatten_nil, append_nil, feedAll]
      rw [append_nil]
    case cons next chunks => rw [ih _ (cons_ne_nil _ _), feed_append]

end Chunks

section Retransmission

variable {log : Log} {byte : UInt8}

-- A packet again; its checksum may have become a CRC.
def Repeats (last p : Bytes) : Prop :=
  last ≠ [] ∧
    (p = last ∨ ∃ sequence data, last = packet sequence data false ∧ p = packet sequence data true)

-- Neither the stage nor the block has changed.
def Stays (sender sender' : Sender) : Prop :=
  sender'.stage = sender.stage ∧ sender'.fileIndex = sender.fileIndex ∧ sender'.offset = sender.offset

theorem fail_stage (error : TransferError) : (sender.fail error).2.stage = .done := by
  rw [fail]
  split
  case isTrue h => exact isDone_iff.mp h
  case isFalse => rfl

theorem retry_sends (h : .send p ∈ (sender.retry now error).1)
    (hs : (sender.retry now error).2.stage ≠ .done) :
    sender.lastPacket ≠ [] ∧ p = sender.lastPacket := by
  rw [retry] at h hs
  split at h
  case isTrue hmax => simp [hmax, fail_stage] at hs
  case isFalse => split at h <;> simp_all

theorem nextData_moves (h : sender.files[sender.fileIndex]? ≠ none) :
    (sender.nextData now).2.stage = .eotAck ∨ (sender.nextData now).2.stage = .done ∨
      (sender.nextData now).2.stage = .dataAck ∧ (sender.nextData now).2.offset = sender.offset := by
  obtain ⟨-, hnone⟩ | heq | heq | ⟨size, block, heq⟩ := @nextData_cases sender now
  · exact absurd hnone h
  · rw [heq]; exact .inl rfl
  · rw [heq]; exact .inr (.inl (fail_stage _))
  · rw [heq]; exact .inr (.inr ⟨rfl, rfl⟩)

theorem startFile_moves (h : sender.Valid log) (hs : sender.stage = .start) :
    (sender.startFile now crc).2.stage ≠ .start := by
  have hfits := h.stage
  rw [hs] at hfits
  rw [startFile]
  split
  case h_1 hprotocol =>
    have hfound : sender.files[sender.fileIndex]? ≠ none := by
      rw [getElem?_eq_getElem (hfits.2.2.2.2.2 hprotocol)]
      exact nofun
    obtain hm | hm | ⟨hm, -⟩ := @nextData_moves { sender with crc, retries := 0 } now hfound
    all_goals rw [hm]; exact nofun
  case h_2 => split <;> exact nofun

theorem respond_repeats (h : sender.Valid log) (hs : sender.stage ≠ .done)
    (hp : .send p ∈ (sender.respond now byte).1) (hstays : Stays sender (sender.respond now byte).2) :
    Repeats sender.lastPacket p := by
  have hfits := h.stage
  have hr := @respond_response sender now byte hs
  generalize sender.respond now byte = result at hr hp hstays
  cases hr
  case ignored => cases hp
  case failed => exact absurd (hstays.1.symm.trans (fail_stage _)) hs
  case retried => exact (retry_sends hp (by rw [hstays.1]; exact hs)).imp id .inl
  case started hstage => exact absurd (hstays.1.trans hstage) (startFile_moves h hstage)
  case introduced => cases hp
  all_goals
    rename sender.stage = _ => hstage
    rw [hstage] at hfits
  case requested crc =>
    obtain ⟨file, ha, -⟩ := hfits
    have hstart := hstays.1.trans hstage
    obtain hm | hm | ⟨hm, -⟩ := @nextData_moves { sender with crc, retries := 0 } now (by simp [ha.found])
    all_goals rw [hm] at hstart; cases hstart
  case acked =>
    obtain ⟨file, data, ha, hpending⟩ := hfits
    have hdata := hstays.1.trans hstage
    have hoffset := hstays.2.2
    have hpositive := hpending.positive
    rw [ackData] at hdata hoffset
    obtain hm | hm | ⟨-, hm⟩ := @nextData_moves sender.advance now (by simp [advance, ha.found])
    · rw [hm] at hdata; cases hdata
    · rw [hm] at hdata; cases hdata
    · rw [hm, advance] at hoffset
      dsimp only at hoffset
      omega
  case switched =>
    obtain ⟨file, data, ha, hpending⟩ := hfits
    have hne : sender.lastPacket ≠ [] := hpending.last ▸ packet_ne_nil
    rw [(retry_sends hp (by rw [hstays.1]; exact hs)).2, switchToCrc]
    split
    case isTrue => exact ⟨hne, .inl rfl⟩
    case isFalse hcrc =>
      have heq := hpending.last
      rw [Bool.eq_false_iff.mpr hcrc] at heq
      refine ⟨hne, .inr ⟨sender.sequence, data, heq, ?_⟩⟩
      dsimp only
      rw [heq, packet_crc]
  case ended =>
    rw [ackEot] at hp
    split at hp <;> simp at hp
  case completed => simp at hp

theorem receive_repeats (h : sender.Valid log) (hs : sender.stage ≠ .done)
    (hp : .send p ∈ (sender.receive now byte).1) (hstays : Stays sender (sender.receive now byte).2) :
    Repeats sender.lastPacket p := by
  rw [receive] at hp hstays
  split at hp
  case isTrue hcan =>
    rw [if_pos hcan] at hstays
    split at hp
    case isTrue hlast =>
      rw [if_pos hlast] at hstays
      exact absurd (hstays.1.symm.trans (fail_stage _)) hs
    case isFalse => cases hp
  case isFalse hcan =>
    rw [if_neg hcan] at hstays
    exact @respond_repeats { sender with lastCan := false } now log byte p (h.update _ _ _ _) hs hp hstays

theorem not_send_initialProgress : .send p ∉ sender.initialProgress.1 := by
  rw [initialProgress]
  split
  · exact not_mem_nil
  · exact fun h => (by cases mem_singleton.mp h)

theorem initialProgress_stays (h : Stays sender sender') :
    Stays sender.initialProgress.2 sender' := by
  rw [initialProgress]
  split <;> exact h

theorem feed_repeats (h : sender.Valid log) (hs : sender.stage ≠ .done)
    (hp : .send p ∈ (sender.feed [byte] now).1) (hstays : Stays sender (sender.feed [byte] now).2) :
    Repeats sender.lastPacket p := by
  simp only [feed, receiveAll, isDone_iff, initialProgress_stage, hs, ↓reduceIte, append_nil] at hp hstays
  have hsend := (mem_append.mp hp).resolve_left not_send_initialProgress
  rw [← initialProgress_last]
  exact receive_repeats (initialProgress_leaves h hs).valid (by simpa using hs) hsend
    (initialProgress_stays hstays)

theorem tick_repeats (hs : sender.stage ≠ .done)
    (hp : .send p ∈ (sender.tick now).1) (hstays : Stays sender (sender.tick now).2) :
    Repeats sender.lastPacket p := by
  simp only [tick, isDone_iff, hs, ↓reduceIte] at hp hstays
  have hsend := (mem_append.mp hp).resolve_left not_send_initialProgress
  split at hsend
  case isTrue hdeadline =>
    rw [if_pos hdeadline] at hstays
    rw [← initialProgress_last]
    exact (retry_sends hsend (by rw [hstays.1]; exact hs)).imp id .inl
  case isFalse => cases hsend

theorem Repeats.of_sent (h : Repeats sender.lastPacket p) (hsent : sender.Sent sent) :
    Repeats sent p := by
  rw [hsent h.1]
  exact h

theorem Valid.sent_empty (h : sender.Valid log) (hs : sender.stage = .start) : sender.Sent [] := by
  have hfits := h.stage
  rw [hs] at hfits
  exact fun _ => hfits.2.2.2.1.symm

end Retransmission

end Sender

end NyaTerm.Xymodem
