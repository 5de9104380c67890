import NyaTerm.Trzsz.Resume
import NyaTerm.Trzsz.Platforms

open List

namespace NyaTerm.Trzsz

variable {reads : Nat → Except String Nat} {entry : UploadEntry}

-- A reader of the entry, at a position.
inductive UploadReader.At (entry : UploadEntry) : Nat → UploadReader → Prop
  | memory {data : Bytes} {n : Nat} : entry.payload = .memory data → At entry n .memory
  | file {content : Bytes} {n count : Nat} : entry.payload = .file content → At entry n (.file n count)

theorem openReader_at : entry.openReader.At entry 0 := by
  rw [UploadEntry.openReader]
  split
  case h_1 h => exact .memory h
  case h_2 h => exact .file h

theorem UploadReader.At.seek {reader : UploadReader} (h : reader.At entry n) (offset : Nat) :
    (reader.seek offset).At entry offset := by
  cases h
  case memory hp => exact .memory hp
  case file hp => exact .file hp

section Reads

variable (hreads : ∀ i, ∃ ready, reads i = .ok ready) (hsize : entry.size = entry.content.length)
include hreads hsize

theorem readUploadChunk_at (h : reader.At entry sent) (hlt : sent < entry.size) :
    ∃ bytes reader', readUploadChunk reads entry sent reader = .ok (bytes, reader') ∧ 0 < bytes.length ∧
      sent + bytes.length ≤ entry.size ∧ bytes = (entry.content.drop sent).take bytes.length ∧
      reader'.At entry (sent + bytes.length) := by
  have hc : 0 < uploadDataChunkSize := by decide
  rw [UploadEntry.content] at hsize ⊢
  rw [readUploadChunk.eq_def]
  cases h
  case memory data hp =>
    rw [hp] at hsize ⊢
    refine ⟨_, _, rfl, ?_, ?_, ?_, .memory hp⟩
    · rw [length_take, length_drop]
      dsimp only at hsize
      omega
    · rw [length_take, length_drop]
      omega
    · rw [take_eq_take_iff, length_take]
      omega
  case file content count hp =>
    obtain ⟨ready, hr⟩ := hreads count
    rw [hp] at hsize ⊢
    dsimp only at hsize ⊢
    rw [hr]
    refine ⟨_, _, rfl, ?_, ?_, ?_, .file hp⟩
    · rw [readFile, length_take, length_drop]
      omega
    · rw [readFile, length_take, length_drop]
      omega
    · rw [readFile, take_eq_take_iff, length_take]
      omega

-- The digest has consumed just the bytes up to the step. The file may be further, but not before the
-- step is complete.
theorem consume_exact {sender : PrefixSender} (hstop : stop ≤ entry.size)
    (hstep : sender.step ≤ stop) (hrounds : stop - sender.step ≤ rounds)
    (hdigest : sender.digest = entry.content.take sender.step) (hat : sender.reader.At entry n)
    (hn : sender.step < stop → n = sender.step) :
    ∃ next, sender.consume reads entry stop rounds = .ok next ∧ next.limit = sender.limit ∧
      next.step = stop ∧ next.matched = sender.matched ∧ next.digest = entry.content.take stop ∧
      ∃ m, next.reader.At entry m := by
  induction rounds generalizing sender n
  case zero =>
    have heq : sender.step = stop := by omega
    exact ⟨sender, rfl, rfl, heq, rfl, heq ▸ hdigest, n, hat⟩
  case succ rounds ih =>
    rw [PrefixSender.consume.eq_def]
    dsimp only
    split
    case isTrue hlt =>
      obtain rfl := hn hlt
      obtain ⟨bytes, reader, hr, hpos, hle, hbytes, hnext⟩ :=
        readUploadChunk_at hreads hsize hat (by omega)
      rw [hr]
      dsimp only
      rw [if_neg (by omega)]
      have htaken : sender.digest ++ bytes.take (min bytes.length (stop - sender.step)) =
          entry.content.take (sender.step + min bytes.length (stop - sender.step)) := by
        rw [hdigest, hbytes, take_take, take_add, length_take, length_drop]
        congr 2
        omega
      exact ih (by dsimp only; omega) (by dsimp only; omega) htaken hnext (by dsimp only; omega)
    case isFalse hge =>
      have heq : sender.step = stop := by omega
      exact ⟨sender, rfl, rfl, heq, rfl, heq ▸ hdigest, n, hat⟩

variable [Library]

-- A sender between two hashes.
structure PrefixSender.Valid (sender : PrefixSender) (entry : UploadEntry) : Prop where
  step : sender.step ≤ sender.limit
  limit : sender.limit ≤ entry.size
  digest : sender.digest = entry.content.take sender.step
  reader : ∃ n, sender.reader.At entry n

section

variable {sender : PrefixSender} (h : sender.Valid entry)
include h

omit [Library] hreads hsize in
theorem PrefixSender.Valid.position
    (ha : sender.isAligned = true) (hlt : sender.step < sender.limit) :
    sender.reader.At entry sender.step := by
  obtain ⟨n, hat⟩ := h.reader
  rw [isAligned] at ha
  cases hr : sender.reader <;> rw [hr] at hat ha
  case memory =>
    cases hat
    case memory hp => exact .memory hp
  case file position count =>
    cases hat
    case file hp =>
      rcases of_decide_eq_true ha with rfl | he
      · exact .file hp
      · omega

theorem next_exact
    (hat : sender.step < sender.limit → sender.reader.At entry sender.step) :
    ∃ next, sender.next reads entry = .ok (next, ⟨next.step, Library.md5 next.digest, false⟩) ∧
      next.Valid entry ∧ next.limit = sender.limit ∧ next.matched = sender.matched ∧
      next.step = min (sender.step + prefixStep) sender.limit := by
  have hstep := h.step
  have hlimit := h.limit
  obtain ⟨n, hn⟩ := h.reader
  have hread : ∃ n, sender.reader.At entry n ∧
      (sender.step < min (sender.step + prefixStep) sender.limit → n = sender.step) := by
    rcases Nat.lt_or_ge sender.step sender.limit with hlt | hge
    · exact ⟨_, hat hlt, fun _ => rfl⟩
    · exact ⟨n, hn, fun h0 => by omega⟩
  obtain ⟨n, hn, heq⟩ := hread
  obtain ⟨next, hc, hl, hs, hm, hd, hr⟩ := consume_exact hreads hsize (by omega) (by omega)
    (Nat.le_refl _) h.digest hn heq
  refine ⟨next, ?_, ⟨?_, ?_, ?_, hr⟩, hl, hm, hs⟩
  · rw [PrefixSender.next, hc]
    rfl
  · rw [hs, hl]
    exact Nat.min_le_right _ _
  · rw [hl]
    exact hlimit
  · rw [hs]
    exact hd

-- What a sender announces.
def PrefixSender.announced (sender : PrefixSender) : PrefixHash :=
  ⟨sender.step, Library.md5 sender.digest, false⟩

omit hreads hsize in
theorem peerAck_announced :
    peerAck target sender.announced =
      ⟨sender.step, Library.md5 (target.take sender.step) =
        Library.md5 (entry.content.take sender.step)⟩ := by
  rw [peerAck, PrefixSender.announced, h.digest]

omit hreads hsize in
theorem lastAgreed_cons :
    lastAgreed target offset (sender.announced :: hashes) =
      lastAgreed target
        (if Library.md5 (target.take sender.step) = Library.md5 (entry.content.take sender.step) then
          sender.step else offset) hashes := by
  rw [lastAgreed, foldl_cons, lastAgreed, PrefixSender.announced, h.digest]

omit hreads hsize [Library] in
omit h in
theorem prefixStep_pos : 0 < prefixStep :=
  Nat.mul_pos (by decide) (by decide)

theorem observePrefixAck_next (ha : sender.isAligned = true) (hlt : sender.step < sender.limit)
    (hagreed : Library.md5 (target.take sender.step) = Library.md5 (entry.content.take sender.step)) :
    ∃ next : PrefixSender,
      sender.observePrefixAck reads entry (peerAck target sender.announced) =
        .ok (.hash next next.announced) ∧ next.Valid entry ∧ next.limit = sender.limit ∧
      next.matched = sender.step ∧ sender.step < next.step := by
  have hvalid : PrefixSender.Valid { sender with matched := sender.step } entry :=
    { h with }
  obtain ⟨next, hn, hv, hl, hm, hs⟩ :=
    next_exact hreads hsize hvalid (fun _ => h.position ha hlt)
  have hmore : sender.step < min (sender.step + prefixStep) sender.limit :=
    Nat.lt_min.mpr ⟨Nat.lt_add_of_pos_right prefixStep_pos, hlt⟩
  refine ⟨next, ?_, hv, hl, hm, hmore.trans_le (Nat.le_of_eq hs.symm)⟩
  rw [peerAck_announced h, PrefixSender.observePrefixAck]
  rw [if_neg (not_not.mpr rfl), decide_eq_true hagreed, if_pos rfl, if_pos ⟨rfl, hlt⟩, hn]
  rfl

omit hreads hsize in
theorem observePrefixAck_accepted
    (hend : ¬ (Library.md5 (target.take sender.step) = Library.md5 (entry.content.take sender.step) ∧
      sender.step < sender.limit)) :
    sender.observePrefixAck reads entry (peerAck target sender.announced) =
      .ok (.accepted (if Library.md5 (target.take sender.step) =
        Library.md5 (entry.content.take sender.step) then sender.step else sender.matched)) := by
  rw [peerAck_announced h, PrefixSender.observePrefixAck]
  rw [if_neg (not_not.mpr rfl)]
  by_cases hagreed : Library.md5 (target.take sender.step) = Library.md5 (entry.content.take sender.step)
  · rw [decide_eq_true hagreed, if_pos rfl, if_neg (fun h0 => hend ⟨hagreed, h0.2⟩), if_pos hagreed]
  · rw [decide_eq_false hagreed, if_neg Bool.false_ne_true,
      if_neg (fun h0 => Bool.false_ne_true h0.1), if_neg hagreed]

theorem negotiate_exact (hrounds : sender.limit - sender.step < rounds)
    (ha : ∀ sent ∈ (sender.negotiate reads entry (peerAck target) rounds sender.announced).1,
      sent.1.isAligned = true) :
    (∀ sent ∈ (sender.negotiate reads entry (peerAck target) rounds sender.announced).1,
      sent.2.hash = Library.md5 (entry.content.take sent.2.step)) ∧
    (sender.negotiate reads entry (peerAck target) rounds sender.announced).2 =
      .ok (lastAgreed target sender.matched
        ((sender.negotiate reads entry (peerAck target) rounds sender.announced).1.map (·.2))) := by
  induction rounds generalizing sender
  case zero => omega
  case succ rounds ih =>
    have hhash : sender.announced.hash = Library.md5 (entry.content.take sender.announced.step) :=
      congrArg Library.md5 h.digest
    rw [PrefixSender.negotiate.eq_def] at ha ⊢
    dsimp only at ha ⊢
    by_cases hnext : Library.md5 (target.take sender.step) = Library.md5 (entry.content.take sender.step) ∧
        sender.step < sender.limit
    · have hself : sender.isAligned = true := by
        split at ha
        case h_1 | h_2 | h_3 => exact ha _ mem_cons_self
      obtain ⟨next, ho, hv, hl, hm, hs⟩ :=
        observePrefixAck_next hreads hsize h hself hnext.2 hnext.1
      rw [ho] at ha ⊢
      dsimp only at ha ⊢
      obtain ⟨hhashes, hoffset⟩ := ih hv (by omega) (fun sent hm => ha sent (mem_cons_of_mem _ hm))
      refine ⟨?_, ?_⟩
      · intro sent hmem
        rcases mem_cons.mp hmem with rfl | hmem
        · exact hhash
        · exact hhashes sent hmem
      · rw [map_cons, lastAgreed_cons h, if_pos hnext.1, hoffset, hm]
    · rw [observePrefixAck_accepted h hnext]
      dsimp only
      refine ⟨?_, ?_⟩
      · intro sent hmem
        rw [mem_singleton.mp hmem]
        exact hhash
      · rw [map_cons, lastAgreed_cons h]
        rfl

end

omit [Library] in
theorem sendData_exact {offset rounds sent : Nat} {reader : UploadReader}
    (hat : reader.At entry (sent + offset))
    (hrounds : entry.size - offset - sent ≤ rounds) :
    ∃ chunks, sendData reads entry offset rounds sent reader = .ok chunks ∧
      chunks.flatten = entry.content.drop (sent + offset) := by
  induction rounds generalizing sent reader
  case zero =>
    refine ⟨[], rfl, ?_⟩
    rw [drop_eq_nil_of_le (by omega)]
    rfl
  case succ rounds ih =>
    rw [sendData.eq_def]
    dsimp only
    split
    case isTrue hlt =>
      obtain ⟨chunk, reader', hr, hpos, hbound, hchunk, hnext⟩ :=
        readUploadChunk_at hreads hsize hat (by omega)
      have hmore : sent + chunk.length + offset = sent + offset + chunk.length := by omega
      rw [← hmore] at hnext
      obtain ⟨chunks, hc, hf⟩ := ih hnext (by omega)
      rw [hr]
      dsimp only
      rw [if_neg (by omega), hc]
      refine ⟨chunk :: chunks, rfl, ?_⟩
      have hwhole := take_append_drop chunk.length (entry.content.drop (sent + offset))
      rw [← hchunk, drop_drop] at hwhole
      rw [flatten_cons, hf, hmore, hwhole]
    case isFalse hge =>
      refine ⟨[], rfl, ?_⟩
      rw [drop_eq_nil_of_le (by omega)]
      rfl

end Reads

theorem lastAgreed_cases [Library] {target : Bytes} {offset : Nat} {hashes : List PrefixHash} :
    lastAgreed target offset hashes = offset ∨ ∃ hash ∈ hashes,
      lastAgreed target offset hashes = hash.step ∧ Library.md5 (target.take hash.step) = hash.hash := by
  induction hashes generalizing offset
  case nil => exact .inl rfl
  case cons hash hashes ih =>
    rw [lastAgreed, foldl_cons]
    obtain he | ⟨other, hm, ho, hd⟩ := @ih (if Library.md5 (target.take hash.step) = hash.hash then
      hash.step else offset)
    · rw [lastAgreed] at he
      rw [he]
      split
      case isTrue hagreed => exact .inr ⟨hash, mem_cons_self, rfl, hagreed⟩
      case isFalse => exact .inl rfl
    · exact .inr ⟨other, mem_cons_of_mem _ hm, ho, hd⟩

-- If no read of a file goes beyond a step that is not the last, each hash is that of the beginning of
-- the file, the accepted part is the one on which the sides agree, and the file arrives as it is.
theorem resume_is_exact [Library] {reads reads' : Nat → Except String Nat} {entry : UploadEntry}
    {target : Bytes} (hreads : ∀ i, ∃ ready, reads i = .ok ready)
    (hreads' : ∀ i, ∃ ready, reads' i = .ok ready) (hsize : entry.size = entry.content.length)
    (hentry : 0 < entry.size) (htarget : 0 < target.length)
    (haligned : ∀ sent ∈ (resume reads entry reads' target).hashes, sent.1.isAligned = true) :
    (∀ sent ∈ (resume reads entry reads' target).hashes,
      sent.2.hash = Library.md5 (entry.content.take sent.2.step)) ∧
    ∃ offset chunks, (resume reads entry reads' target).result = .ok (offset, chunks) ∧
      offset = lastAgreed target 0 ((resume reads entry reads' target).hashes.map (·.2)) ∧
      ((Library.md5 (target.take offset) = Library.md5 (entry.content.take offset) →
        target.take offset = entry.content.take offset) →
        target.take offset ++ chunks.flatten = entry.content) := by
  have hvalid : PrefixSender.Valid ⟨min target.length entry.size, 0, 0, entry.openReader, []⟩ entry :=
    ⟨Nat.zero_le _, Nat.min_le_right _ _, rfl, 0, openReader_at⟩
  obtain ⟨next, hn, hv, hl, hm, hs⟩ := next_exact hreads hsize hvalid (fun _ => openReader_at)
  have hstep : 0 < next.step := by
    rw [hs]
    exact Nat.lt_min.mpr ⟨Nat.lt_add_left 0 prefixStep_pos, Nat.lt_min.mpr ⟨htarget, hentry⟩⟩
  have hlimit : next.step ≤ next.limit := hv.step
  have hresume : resume reads entry reads' target =
      ⟨(next.negotiate reads entry (peerAck target) next.limit next.announced).1,
        (next.negotiate reads entry (peerAck target) next.limit next.announced).2.bind fun offset =>
          (sendData reads' entry offset (entry.size - offset) 0 (entry.openReader.seek offset)).map
            fun chunks => (offset, chunks)⟩ := by
    rw [resume]
    rw [hn]
    rfl
  rw [hresume] at haligned ⊢
  obtain ⟨hhashes, hoffset⟩ := negotiate_exact hreads hsize hv (Nat.sub_lt (hstep.trans_le hlimit) hstep)
    haligned
  rw [hoffset, hm]
  generalize hlast : lastAgreed target 0
    ((next.negotiate reads entry (peerAck target) next.limit next.announced).1.map (·.2)) = offset
  obtain ⟨chunks, hc, hf⟩ := @sendData_exact reads' entry hreads' hsize offset (entry.size - offset) 0 _
    (by rw [Nat.zero_add]; exact openReader_at.seek offset) (Nat.le_refl _)
  refine ⟨hhashes, offset, chunks, ?_, rfl, fun hdigest => ?_⟩
  · rw [Except.bind, hc]
    rfl
  · have hsame : target.take offset = entry.content.take offset := by
      rcases @lastAgreed_cases _ target 0
        ((next.negotiate reads entry (peerAck target) next.limit next.announced).1.map (·.2))
        with h0 | ⟨hash, hmem, hstep, hagreed⟩
      · rw [← hlast, h0, take_zero, take_zero]
      · obtain ⟨sent, hsent, rfl⟩ := mem_map.mp hmem
        rw [hlast] at hstep
        rw [hhashes sent hsent, ← hstep] at hagreed
        exact hdigest hagreed
    rw [hsame, hf, Nat.zero_add, take_append_drop]

section Overshoot

variable {content : Bytes}

theorem readUploadChunk_file {count : Nat} (hp : entry.payload = .file content)
    (hr : reads count = .ok ready) :
    readUploadChunk reads entry sent (.file position count) =
      .ok (readFile content position ready (min (entry.size - sent) uploadDataChunkSize),
        .file (position +
          (readFile content position ready (min (entry.size - sent) uploadDataChunkSize)).length)
          (count + 1)) := by
  rw [readUploadChunk.eq_def, hp]
  dsimp only
  rw [hr]

theorem length_readFile :
    (readFile content position ready wanted).length =
      min (min (max 1 ready) wanted) (content.length - position) := by
  rw [readFile, length_take, length_drop]

theorem consume_read {sender : PrefixSender} {stop rounds position count ready length : Nat}
    (hp : entry.payload = .file content) (hreader : sender.reader = .file position count)
    (hr : reads count = .ok ready) (hlt : sender.step < stop)
    (hlength : min (min (max 1 ready) (min (entry.size - sender.step) uploadDataChunkSize))
      (content.length - position) = length) (hpos : 0 < length) :
    sender.consume reads entry stop (rounds + 1) =
      PrefixSender.consume reads entry stop rounds { sender with
        reader := .file (position + length) (count + 1)
        digest := sender.digest ++ (content.drop position).take (min length (stop - sender.step))
        step := sender.step + min length (stop - sender.step) } := by
  have hl : (readFile content position ready (min (entry.size - sender.step) uploadDataChunkSize)).length =
      length := length_readFile.trans hlength
  have htake : (readFile content position ready (min (entry.size - sender.step) uploadDataChunkSize)).take
      (min length (stop - sender.step)) =
      (content.drop position).take (min length (stop - sender.step)) := by
    rw [readFile, take_take]
    rw [readFile, length_take] at hl
    congr 1
    omega
  rw [PrefixSender.consume.eq_def]
  dsimp only
  rw [if_pos hlt, hreader, readUploadChunk_file hp hr]
  dsimp only
  rw [hl, htake, if_neg (by omega)]

theorem consume_done {sender : PrefixSender} (h : sender.step = stop) :
    sender.consume reads entry stop rounds = .ok sender := by
  cases rounds
  case zero => rfl
  case succ rounds =>
    rw [PrefixSender.consume.eq_def]
    dsimp only
    rw [if_neg (by omega)]

theorem consume_chunks {sender : PrefixSender} {stop rounds count chunks missing : Nat}
    (hp : entry.payload = .file content) (hreader : sender.reader = .file sender.step count)
    (hr : ∀ i, count ≤ i → reads i = .ok uploadDataChunkSize)
    (hstop : stop = sender.step + chunks * uploadDataChunkSize + missing) (hpos : 0 < missing)
    (hmissing : missing ≤ uploadDataChunkSize)
    (hsize : sender.step + (chunks + 1) * uploadDataChunkSize ≤ entry.size)
    (hlength : entry.size ≤ content.length) (hrounds : chunks < rounds) :
    ∃ next count', sender.consume reads entry stop rounds = .ok next ∧ count ≤ count' ∧
      next.reader = .file (sender.step + (chunks + 1) * uploadDataChunkSize) count' := by
  induction chunks generalizing sender rounds count
  all_goals
    obtain ⟨rounds, rfl⟩ := Nat.exists_eq_succ_of_ne_zero (Nat.ne_of_gt (Nat.zero_lt_of_lt hrounds))
    have hmin : min (min (max 1 uploadDataChunkSize) (min (entry.size - sender.step) uploadDataChunkSize))
        (content.length - sender.step) = uploadDataChunkSize := by
      rw [Nat.succ_mul] at hsize
      generalize uploadDataChunkSize = size at hmissing hsize ⊢
      omega
    have hlt : sender.step < stop := by
      omega
    have hread := @consume_read reads entry content sender stop rounds sender.step count _ _ hp hreader
      (hr count (Nat.le_refl _)) hlt hmin (Nat.lt_of_lt_of_le hpos hmissing)
  case zero =>
    rw [hread, consume_done]
    · refine ⟨_, _, rfl, Nat.le_succ _, ?_⟩
      rw [Nat.zero_add, Nat.one_mul]
    · dsimp only
      rw [Nat.zero_mul] at hstop
      generalize uploadDataChunkSize = size at hmissing ⊢
      omega
  case succ chunks ih =>
    have hcount : min uploadDataChunkSize (stop - sender.step) = uploadDataChunkSize := by
      rw [Nat.succ_mul] at hstop
      generalize uploadDataChunkSize = size at hstop ⊢
      omega
    rw [hread, hcount]
    obtain ⟨next, count', hn, hle, hnext⟩ := @ih { sender with
        reader := .file (sender.step + uploadDataChunkSize) (count + 1)
        digest := sender.digest ++ (content.drop sender.step).take uploadDataChunkSize
        step := sender.step + uploadDataChunkSize } rounds (count + 1) rfl
      (fun i hi => hr i (Nat.le_of_succ_le hi)) (by rw [hstop, Nat.succ_mul]; dsimp only; omega)
      (by rw [Nat.succ_mul] at hsize; dsimp only; omega) (Nat.lt_of_succ_lt_succ hrounds)
    refine ⟨next, count', hn, Nat.le_of_succ_le hle, hnext.trans ?_⟩
    congr 1
    dsimp only
    rw [Nat.succ_mul (chunks + 1)]
    omega

-- A file whose first read returns one byte and whose other reads return whole chunks.
def shortFirst (count : Nat) : Except String Nat :=
  if count = 0 then .ok 1 else .ok uploadDataChunkSize

def longEntry (content : Bytes) : UploadEntry :=
  ⟨"file", content.length, .file content⟩

theorem prefixStep_eq : prefixStep = 1 + 39 * uploadDataChunkSize + (uploadDataChunkSize - 1) := by
  decide

theorem chunks_eq : 0 + 1 + (39 + 1) * uploadDataChunkSize = prefixStep + 1 := by
  decide

theorem chunks_le : 0 + 1 + (39 + 1) * uploadDataChunkSize ≤ prefixStep + 3 := by
  decide

variable [Library]

theorem negotiate_head {sender : PrefixSender} {hash : PrefixHash} :
    (sender, hash) ∈ (sender.negotiate reads entry peer rounds hash).1 := by
  rw [PrefixSender.negotiate.eq_def]
  split
  case h_1 => exact mem_singleton_self _
  case h_2 => split <;> exact mem_cons_self

section

variable (hlen : content.length = prefixStep + 3)
include hlen

theorem next_shortFirst {limit : Nat} (hlimit : prefixStep < limit)
    (hle : limit ≤ content.length) :
    ∃ next count, PrefixSender.next shortFirst (longEntry content) ⟨limit, 0, 0, .file 0 0, []⟩ =
        .ok (next, next.announced) ∧
      next.step = prefixStep ∧ next.limit = limit ∧ next.digest = content.take prefixStep ∧ 0 < count ∧
      next.reader = .file (prefixStep + 1) count := by
  have hreads : ∀ i, ∃ ready, shortFirst i = .ok ready := by
    intro i
    rw [shortFirst]
    split
    · exact ⟨_, rfl⟩
    · exact ⟨_, rfl⟩
  have hvalid : PrefixSender.Valid ⟨limit, 0, 0, .file 0 0, []⟩ (longEntry content) :=
    ⟨Nat.zero_le _, hle, rfl, 0, .file rfl⟩
  obtain ⟨next, hn, hv, hl, -, hs⟩ := next_exact hreads rfl hvalid (fun _ => .file rfl)
  have hstop : min (0 + prefixStep) limit = prefixStep := by
    exact Nat.min_eq_left (Nat.le_of_lt hlimit)
  rw [hstop] at hs
  have hone : min (min (max 1 1) (min (content.length - 0) uploadDataChunkSize))
      (content.length - 0) = 1 := by
    have hc : 0 < uploadDataChunkSize := by decide
    generalize uploadDataChunkSize = size at hc ⊢
    generalize prefixStep = step at hlen
    omega
  have hfirst := @consume_read shortFirst (longEntry content) content ⟨limit, 0, 0, .file 0 0, []⟩ prefixStep
    (39 * uploadDataChunkSize + (uploadDataChunkSize - 1)) 0 0 1 1 rfl rfl rfl prefixStep_pos hone
    Nat.one_pos
  have hmin : min 1 (prefixStep - 0) = 1 := Nat.min_eq_left prefixStep_pos
  rw [hmin] at hfirst
  obtain ⟨other, count, ho, hcount, hreader⟩ := @consume_chunks shortFirst (longEntry content) content
    ⟨limit, 0 + 1, 0, .file (0 + 1) (0 + 1), [] ++ (content.drop 0).take 1⟩ prefixStep
    (39 * uploadDataChunkSize + (uploadDataChunkSize - 1)) 1 39 (uploadDataChunkSize - 1) rfl rfl
    (fun i hi => if_neg (Nat.ne_of_gt hi)) prefixStep_eq (by decide) (Nat.sub_le _ _)
    (by rw [longEntry, hlen]; exact chunks_le) (Nat.le_refl _) (by decide)
  have hrounds : prefixStep - 0 = 39 * uploadDataChunkSize + (uploadDataChunkSize - 1) + 1 := by decide
  have hsame : next = other := by
    rw [PrefixSender.next] at hn
    rw [hstop, hrounds, hfirst, ho] at hn
    exact (Prod.mk.inj (Except.ok.inj hn)).1.symm
  refine ⟨next, count, hn, hs, hl, ?_, hcount, ?_⟩
  · rw [hv.digest, hs]
    rfl
  · rw [hsame, hreader, chunks_eq]

theorem next_beyond {sender : PrefixSender} {count : Nat}
    (hs : sender.step = prefixStep) (hl : sender.limit = prefixStep + 2)
    (hd : sender.digest = content.take prefixStep) (hcount : 0 < count)
    (hreader : sender.reader = .file (prefixStep + 1) count) :
    ∃ next, sender.next shortFirst (longEntry content) = .ok (next, next.announced) ∧
      next.announced.step = prefixStep + 2 ∧ next.announced.hash =
        Library.md5 (content.take prefixStep ++ content.drop (prefixStep + 1)) := by
  have hstop : min (sender.step + prefixStep) sender.limit = prefixStep + 2 := by
    rw [hs, hl]
    exact Nat.min_eq_right (Nat.add_le_add_left (by decide) _)
  have hlength : min (min (max 1 uploadDataChunkSize)
      (min ((longEntry content).size - sender.step) uploadDataChunkSize))
      (content.length - (prefixStep + 1)) = 2 := by
    have hc : 3 ≤ uploadDataChunkSize := by decide
    rw [longEntry, hs]
    dsimp only
    rw [hlen]
    generalize uploadDataChunkSize = size at hc ⊢
    generalize prefixStep = step
    omega
  have hread := @consume_read shortFirst (longEntry content) content sender (prefixStep + 2) 1
    (prefixStep + 1) count _ 2 rfl hreader (if_neg (Nat.ne_of_gt hcount))
    (by rw [hs]; exact Nat.lt_add_of_pos_right Nat.two_pos) hlength Nat.two_pos
  have htwo : prefixStep + 2 - sender.step = 1 + 1 := by
    rw [hs]
    exact Nat.add_sub_cancel_left _ _
  have htake : (content.drop (prefixStep + 1)).take 2 = content.drop (prefixStep + 1) := by
    apply take_of_length_le
    rw [length_drop, hlen]
    generalize prefixStep = step
    omega
  rw [htwo, Nat.min_self, htake] at hread
  generalize hnext : ({ sender with
      reader := .file (prefixStep + 1 + 2) (count + 1)
      digest := sender.digest ++ content.drop (prefixStep + 1)
      step := sender.step + 2 } : PrefixSender) = next at hread
  have hstep : next.step = prefixStep + 2 := by
    rw [← hnext, hs]
  have hdigest : next.digest = content.take prefixStep ++ content.drop (prefixStep + 1) := by
    rw [← hnext, hd]
  rw [consume_done hstep] at hread
  refine ⟨next, ?_, hstep, congrArg Library.md5 hdigest⟩
  rw [PrefixSender.next, hstop, htwo, hread]
  rfl

theorem resume_shortFirst :
    ∃ sent ∈ (resume shortFirst (longEntry content) shortFirst (content.take (prefixStep + 2))).hashes,
      sent.2.step = prefixStep + 2 ∧
      sent.2.hash = Library.md5 (content.take prefixStep ++ content.drop (prefixStep + 1)) := by
  obtain ⟨first, count, hn, hs, hl, hd, hcount, hreader⟩ :=
    @next_shortFirst content _ hlen (prefixStep + 2) (Nat.lt_add_of_pos_right Nat.two_pos)
      (by rw [hlen]; exact Nat.le_succ _)
  obtain ⟨second, hm, hstep, hhash⟩ := @next_beyond content _ hlen { first with matched := first.step } count
    hs hl hd hcount hreader
  have hagreed : Library.md5 ((content.take (prefixStep + 2)).take first.step) =
      Library.md5 first.digest := by
    rw [hs, hd, take_take, Nat.min_eq_left (Nat.le_add_right _ _)]
  have hack : first.observePrefixAck shortFirst (longEntry content)
      (peerAck (content.take (prefixStep + 2)) first.announced) = .ok (.hash second second.announced) := by
    rw [peerAck, PrefixSender.announced, PrefixSender.observePrefixAck]
    dsimp only
    have hmore : first.step < first.limit := by
      rw [hs, hl]
      exact Nat.lt_add_of_pos_right Nat.two_pos
    rw [if_neg (not_not.mpr rfl), decide_eq_true hagreed, if_pos rfl, if_pos ⟨rfl, hmore⟩, hm]
    rfl
  refine ⟨(second, second.announced), ?_, hstep, hhash⟩
  have hlimit : min (content.take (prefixStep + 2)).length (longEntry content).size = prefixStep + 2 := by
    rw [length_take, longEntry]
    dsimp only
    rw [hlen]
    generalize prefixStep = step
    omega
  rw [resume, hlimit]
  dsimp only
  rw [show (longEntry content).openReader = .file 0 0 from rfl, hn]
  dsimp only
  rw [hl, PrefixSender.negotiate.eq_def]
  dsimp only
  rw [hack]
  exact mem_cons_of_mem _ negotiate_head

end

end Overshoot

namespace Sample

local instance digests : Library := plainLibrary

def longContent : Bytes :=
  replicate prefixStep 0 ++ [1, 2, 3]

-- A hash that is not the one of the beginning of the file.
theorem resume_is_not_exact :
    ∃ sent ∈ (resume shortFirst (longEntry longContent) shortFirst
      (longContent.take (prefixStep + 2))).hashes,
      sent.2.hash ≠ Library.md5 (longContent.take sent.2.step) := by
  have hlen : longContent.length = prefixStep + 3 := by
    rw [longContent, length_append, length_replicate]
    rfl
  obtain ⟨sent, hmem, hstep, hhash⟩ := resume_shortFirst hlen
  refine ⟨sent, hmem, ?_⟩
  have hskip : longContent.drop (prefixStep + 1) = [2, 3] := by
    rw [longContent, ← drop_drop, List.drop_left' length_replicate]
    rfl
  have htake : longContent.take (prefixStep + 2) = longContent.take prefixStep ++ [1, 2] := by
    rw [take_add, longContent, List.drop_left' length_replicate]
    rfl
  rw [hhash, hstep, hskip, htake]
  intro he
  have hdigest := append_cancel_right he
  exact absurd (append_cancel_left hdigest) (by decide)

-- A file of which a part is there, with reads of one byte.
def smallEntry : UploadEntry :=
  ⟨"file", 4, .file [1, 2, 3, 4]⟩

def single (_ : Nat) : Except String Nat :=
  .ok 1

theorem resume_is_exact_small :
    ∃ offset chunks, (resume single smallEntry single [1, 2]).result = .ok (offset, chunks) ∧
      offset = lastAgreed [1, 2] 0 ((resume single smallEntry single [1, 2]).hashes.map (·.2)) := by
  have hreads : ∀ i, ∃ ready, single i = .ok ready := fun _ => ⟨1, rfl⟩
  have haligned : (resume single smallEntry single [1, 2]).hashes.all (·.1.isAligned) = true := by decide
  obtain ⟨-, offset, chunks, hr, ho, -⟩ := @resume_is_exact digests single single smallEntry [1, 2] hreads
    hreads rfl (by decide) (by decide) (all_eq_true.mp haligned)
  exact ⟨offset, chunks, hr, ho⟩

end Sample

end NyaTerm.Trzsz
