import Mathlib.Data.List.Pairwise
import NyaTerm.Lib.Fallible
import NyaTerm.Trzsz.Codec

open List

namespace NyaTerm.Trzsz.Codec

section Table

-- The entries of a table differ in both places and are bytes.
structure Distinct (table : List (Nat × Nat)) : Prop where
  apart : table.Pairwise fun a b => a.1 ≠ b.1 ∧ a.2 ≠ b.2
  bytes : ∀ entry ∈ table, entry.1 ≤ 255 ∧ entry.2 ≤ 255

variable {config : Config}

theorem escapeEntry_eq (h : Config.escapeEntry mapping = some entry) :
    (∃ byte, mapping.1.toList = [byte] ∧ byte.toNat = entry.1) ∧ entry.1 ≤ 255 ∧ entry.2 ≤ 255 := by
  rw [Config.escapeEntry] at h
  split at h
  case h_1 byte leader code hb hc =>
    obtain ⟨hs, ⟨⟩⟩ := Option.ite_none_right_eq_some.mp h
    exact ⟨⟨byte, hb, rfl⟩, hs.1, hs.2.2⟩
  case h_2 => cases h

theorem addEscape_eq
    (h : Config.addEscape table mapping = .ok table') (hd : Distinct table) :
    ∃ entry, Config.escapeEntry mapping = some entry ∧ table' = table ++ [entry] ∧ Distinct table' := by
  rw [Config.addEscape] at h
  split at h
  case h_1 => cases h
  case h_2 entry he =>
    split at h
    case isTrue => cases h
    case isFalse hn =>
      cases h
      simp only [any_eq_true, not_exists, not_and] at hn
      refine ⟨entry, he, rfl, pairwise_append.mpr ⟨hd.apart, pairwise_singleton _ _, ?_⟩,
        forall_mem_append.mpr ⟨hd.bytes, ?_⟩⟩
      · simpa using hn
      · simpa using (escapeEntry_eq he).2

theorem foldlM_addEscape {mappings : List (String × String)}
    (h : mappings.foldlM Config.addEscape table = .ok table') (hd : Distinct table) :
    ∃ added, table' = table ++ added ∧ Distinct table' ∧
      mappings.map Config.escapeEntry = added.map some := by
  induction mappings generalizing table
  case nil =>
    cases h
    exact ⟨[], (append_nil _).symm, hd, rfl⟩
  case cons mapping mappings ih =>
    rw [foldlM_cons, Fallible.bind_eq_ok] at h
    obtain ⟨next, ha, h⟩ := h
    obtain ⟨entry, he, rfl, hn⟩ := addEscape_eq ha hd
    obtain ⟨added, rfl, hlast, hmap⟩ := ih h hn
    refine ⟨entry :: added, by rw [append_assoc]; rfl, hlast, ?_⟩
    rw [map_cons, map_cons, he, hmap]

theorem escapeTable_eq (h : config.escapeTable = .ok table) :
    Distinct table ∧ config.escapeChars.map Config.escapeEntry = table.map some := by
  obtain ⟨added, rfl, hd, hm⟩ := foldlM_addEscape h ⟨.nil, nofun⟩
  exact ⟨hd, hm⟩

theorem find?_unique {p : α → Bool} {l : List α} {a : α} (hm : a ∈ l) (hp : p a = true)
    (h : ∀ b ∈ l, p b = true → b = a) : l.find? p = some a := by
  cases hf : l.find? p
  case none => exact absurd hp (find?_eq_none.mp hf a hm)
  case some b => rw [h b (mem_of_find?_eq_some hf) (find?_some hf)]

theorem code_eq_some (hd : Distinct table)
    (h : (escapes config table).code byte = some code) : (byte.toNat, code.toNat) ∈ table := by
  obtain ⟨entry, hf, rfl⟩ := Option.map_eq_some_iff.mp h
  have hm := mem_of_find?_eq_some hf
  have hb : entry.1 = byte.toNat := by simpa using find?_some hf
  have hc := (hd.bytes entry hm).2
  rw [UInt8.toNat_ofNat_of_lt' (Nat.lt_succ_of_le hc), ← hb]
  exact hm

theorem Distinct.eq_of_code (hd : Distinct table) (ha : a ∈ table) (hb : b ∈ table) (h : a.2 = b.2) :
    a = b := by
  have hsymm : Std.Symm fun a b : Nat × Nat => a.1 ≠ b.1 ∧ a.2 ≠ b.2 :=
    ⟨fun _ _ h => ⟨h.1.symm, h.2.symm⟩⟩
  exact not_not.mp fun hne => (hd.apart.forall ha hb hne).2 h

theorem item_eq_some (hd : Distinct table)
    (hm : (byte.toNat, code.toNat) ∈ table) : (escapes config table).item code = some byte := by
  have hf : table.find? (·.2 = code.toNat) = some (byte.toNat, code.toNat) := by
    refine find?_unique hm (decide_eq_true rfl) fun other ho hc => hd.eq_of_code ho hm ?_
    exact of_decide_eq_true hc
  rw [escapes]
  dsimp only
  rw [hf, Option.map_some, UInt8.ofNat_toNat]

theorem lawful_escapes (h : config.escapeTable = .ok table) : (escapes config table).Lawful := by
  obtain ⟨hd, hm⟩ := escapeTable_eq h
  constructor
  · exact fun hc => item_eq_some hd (code_eq_some hd hc)
  · intro a c hc
    have hmem := code_eq_some hd hc
    have hlen := congrArg List.length hm
    have hpos := length_pos_of_mem hmem
    rw [length_map, length_map] at hlen
    rw [escapes, Bool.not_eq_true', isEmpty_eq_false_iff]
    exact ne_nil_of_length_pos (by omega)

theorem code_leader (h : config.escapeTable = .ok table) :
    (escapes config table).code 238 ≠ none ↔ EscapesLeader config := by
  obtain ⟨hd, hm⟩ := escapeTable_eq h
  constructor
  · intro hn
    obtain ⟨code, hc⟩ := Option.ne_none_iff_exists'.mp hn
    have hmem := mem_map_of_mem (f := some) (code_eq_some hd hc)
    rw [← hm] at hmem
    obtain ⟨mapping, hmapping, he⟩ := mem_map.mp hmem
    obtain ⟨byte, hb, hn⟩ := (escapeEntry_eq he).1
    refine ⟨mapping, hmapping, ?_⟩
    rw [hb, ← Char.ofNat_toNat byte, hn]
    rfl
  · rintro ⟨mapping, hmapping, hl⟩ hn
    have hmem := mem_map_of_mem (f := Config.escapeEntry) hmapping
    rw [hm] at hmem
    obtain ⟨entry, he, hentry⟩ := mem_map.mp hmem
    obtain ⟨byte, hb, hbyte⟩ := (escapeEntry_eq hentry.symm).1
    rw [hl] at hb
    have hfind := find?_eq_none.mp (Option.map_eq_none_iff.mp hn) entry he
    rw [← hbyte, ← singleton_inj.mp hb] at hfind
    exact hfind rfl

end Table

variable [Zstd]

namespace Encoder

variable {encoder : Encoder}

-- What is packed of data: the data itself or a compressed frame.
def payload (encoder : Encoder) (chunks : List (List UInt8)) (last : List UInt8) : List UInt8 :=
  encoder.zstd.elim (chunks.flatten ++ last) fun zstd => Zstd.frame zstd chunks last

theorem payload_nil : encoder.payload [] last = (encoder.compress last true).1 := by
  rw [payload, compress]
  cases encoder.zstd <;> rfl

theorem payload_cons : encoder.payload (chunk :: chunks) last =
    (encoder.compress chunk false).1 ++ (encoder.encode chunk false).2.payload chunks last := by
  have hz : (encoder.encode chunk false).2.zstd = (encoder.compress chunk false).2 := by
    rw [encode]
    split <;> rfl
  rw [payload, payload, hz, compress]
  cases encoder.zstd
  case none => exact append_assoc _ _ _
  case some => rfl

theorem encodeAll_binary (h : encoder.binary = true) :
    encoder.encodeAll chunks last = encoder.escapes.escape (encoder.payload chunks last) := by
  induction chunks generalizing encoder
  case nil => rw [encodeAll, payload_nil, encode, if_pos h]
  case cons chunk chunks ih =>
    have hnext : encoder.encode chunk false = (encoder.escapes.escape (encoder.compress chunk false).1,
        { encoder with zstd := (encoder.compress chunk false).2 }) := by
      rw [encode, if_pos h]
    have hrest := @ih (encoder.encode chunk false).2 (by rw [hnext]; exact h)
    rw [encodeAll, payload_cons, Escape.Table.escape_append, hrest, hnext]

theorem encodeAll_base64 (h : encoder.binary = false) :
    encoder.encodeAll chunks last =
      Base64.encode (encoder.base64Tail ++ encoder.payload chunks last) := by
  have hb : ¬ encoder.binary = true := Bool.eq_false_iff.mp h
  induction chunks generalizing encoder
  case nil =>
    rw [encodeAll, payload_nil, encode, if_neg hb]
    dsimp only
    rw [if_pos rfl, take_length]
  case cons chunk chunks ih =>
    generalize ht : encoder.base64Tail ++ (encoder.compress chunk false).1 = tail
    have hnext : encoder.encode chunk false = (Base64.encode (tail.take (3 * (tail.length / 3))),
        { encoder with
          zstd := (encoder.compress chunk false).2
          base64Tail := tail.drop (3 * (tail.length / 3)) }) := by
      rw [encode, if_neg hb, Nat.mul_comm 3]
      dsimp only
      rw [ht]
      rfl
    have hrest := @ih (encoder.encode chunk false).2 (by rw [hnext]; exact h) (by rw [hnext]; exact hb)
    have hsplit (rest : List UInt8) : Base64.encode (tail ++ rest) =
        Base64.encode (tail.take (3 * (tail.length / 3))) ++
          Base64.encode (tail.drop (3 * (tail.length / 3)) ++ rest) := by
      have hle : 3 * (tail.length / 3) ≤ tail.length := by omega
      rw [← Base64.encode_append_take (tail.length / 3), take_append_of_le_length hle,
        drop_append_of_le_length hle]
    rw [encodeAll, payload_cons, ← append_assoc, ht, hrest, hsplit, hnext]

end Encoder

namespace Decoder

variable {decoder : Decoder}

-- The bytes of a stream that are still to come, what they are unpacked to and whether they end
-- inside an escape.
inductive Unpacks (decoder : Decoder) (left todo : List UInt8) (cut : Bool) : Prop
  | binary : decoder.binary = true → decoder.tail = [] →
    Transducer.run decoder.escapes.unescape decoder.escaped left = ⟨todo, cut, false⟩ →
    Unpacks decoder left todo cut
  | base64 : decoder.binary = false → decoder.escaped = false → cut = false →
    decoder.tail.length < 4 → (decoder.padded = true → todo = []) →
    decoder.tail ++ left = Base64.encode todo → Unpacks decoder left todo cut

-- Unpacking changes nothing else.
structure SameStage (decoder next : Decoder) : Prop where
  zstd : next.zstd = decoder.zstd
  frameComplete : next.frameComplete = decoder.frameComplete
  seenInput : next.seenInput = decoder.seenInput

theorem unpack_binary (hb : decoder.binary = true) (ht : decoder.tail = [])
    (h : Transducer.run decoder.escapes.unescape decoder.escaped (input ++ later) = ⟨todo, cut, false⟩) :
    ∃ bytes next rest, decoder.unpack input = .ok (bytes, next) ∧ todo = bytes ++ rest ∧
      next.Unpacks later rest cut ∧ decoder.SameStage next := by
  have hs : (Transducer.run decoder.escapes.unescape decoder.escaped input).stopped = false := by
    rw [← Bool.not_eq_true]
    intro hs
    rw [Transducer.run_append_stopped hs] at h
    rw [h] at hs
    cases hs
  rw [Transducer.run_append hs] at h
  rw [unpack, if_pos hb]
  rw [if_neg (Bool.eq_false_iff.mp hs)]
  refine ⟨_, _, _, rfl, (congrArg Transducer.Outcome.output h).symm, .binary hb ht ?_, rfl, rfl, rfl⟩
  injection h with ho hst hsp
  rw [← hst, ← hsp]

theorem unpack_base64 (hb : decoder.binary = false) (he : decoder.escaped = false)
    (hp : decoder.padded = true → todo = []) (h : decoder.tail ++ (input ++ later) = Base64.encode todo) :
    ∃ bytes next rest, decoder.unpack input = .ok (bytes, next) ∧ todo = bytes ++ rest ∧
      next.Unpacks later rest false ∧ decoder.SameStage next := by
  have hinput : ¬ (decoder.padded = true ∧ input ≠ []) := by
    rintro ⟨hpad, hne⟩
    rw [hp hpad] at h
    exact hne (append_eq_nil_iff.mp (append_eq_nil_iff.mp h).2).1
  rw [unpack, if_neg (Bool.eq_false_iff.mp hb), if_neg hinput]
  dsimp only
  rw [← append_assoc] at h
  generalize decoder.tail ++ input = tail at h ⊢
  have hle : 4 * (tail.length / 4) ≤ tail.length := by omega
  have htake : tail.take (tail.length / 4 * 4) = Base64.encode (todo.take (3 * (tail.length / 4))) := by
    rw [← (Base64.encode_split _).1, ← h, Nat.mul_comm, take_append_of_le_length hle]
  have hdrop : tail.drop (tail.length / 4 * 4) ++ later =
      Base64.encode (todo.drop (3 * (tail.length / 4))) := by
    rw [← (Base64.encode_split _).2, ← h, Nat.mul_comm, drop_append_of_le_length hle]
  rw [htake, Base64.decode_encode]
  refine ⟨_, _, _, rfl, (take_append_drop _ _).symm, ?_, rfl, rfl, rfl⟩
  refine .base64 hb he rfl ?_ ?_ hdrop
  · dsimp only
    rw [length_drop]
    omega
  · intro hpad
    dsimp only at hpad
    rw [Bool.or_eq_true, decide_eq_true_eq] at hpad
    rcases hpad with hpad | hpad
    · rw [hp hpad, drop_nil]
    · have hlen := Base64.encode_padded hpad
      rw [length_take] at hlen
      exact drop_eq_nil_of_le (by omega)

theorem unpack_step (h : decoder.Unpacks (input ++ later) todo cut) :
    ∃ bytes next rest, decoder.unpack input = .ok (bytes, next) ∧ todo = bytes ++ rest ∧
      next.Unpacks later rest cut ∧ decoder.SameStage next := by
  cases h
  case binary hb ht hr => exact unpack_binary hb ht hr
  case base64 hb he hc ht hp hl =>
    subst hc
    exact unpack_base64 hb he hp hl

theorem unpacks_nil (h : decoder.Unpacks [] todo cut) :
    todo = [] ∧ decoder.tail = [] ∧ decoder.escaped = cut := by
  cases h
  case binary hb ht hr =>
    cases hr
    exact ⟨rfl, ht, rfl⟩
  case base64 hb he hc ht hp hl =>
    rw [append_nil] at hl
    have hlen := congrArg List.length hl
    rw [Base64.encode_length] at hlen
    have hnil : todo = [] := eq_nil_of_length_eq_zero (by omega)
    rw [hnil] at hl
    exact ⟨hnil, hl, by rw [he, hc]⟩

-- There is something to come of the data as long as there is something to come of the stream.
theorem unpacks_empty (h : decoder.Unpacks left [] false)
    (ht : decoder.tail = []) (he : decoder.escaped = false) : left = [] := by
  cases h
  case binary hb _ hr =>
    rw [he] at hr
    exact Escape.Table.run_eq_nil hr
  case base64 hb _ hc _ hp hl =>
    rw [ht] at hl
    exact hl

section Inflate

variable {read : List UInt8}
variable {zstd : Zstd.Decoder}

-- A decompressor that has read some bytes of a frame.
structure Inflated (chunks : List (List UInt8)) (last : List UInt8) (zstd : Zstd.Decoder)
    (isComplete : Bool) (read written : List UInt8) : Prop where
  follows : Zstd.Follows (Zstd.frame Zstd.newEncoder chunks last) zstd read written
  isComplete : isComplete = true ↔ read = Zstd.frame Zstd.newEncoder chunks last
  written : read = Zstd.frame Zstd.newEncoder chunks last → written = chunks.flatten ++ last

omit [Zstd] in
theorem outputSize_pos : 0 < outputSize := by decide

theorem inflate_step (hz : Zstd.Lossless)
    (hf : Zstd.Follows (Zstd.frame Zstd.newEncoder chunks last) zstd read written)
    (hb : read ++ bytes ++ later = Zstd.frame Zstd.newEncoder chunks last)
    (hn : ¬ (read = Zstd.frame Zstd.newEncoder chunks last ∧ written = chunks.flatten ++ last))
    (hr : Zstd.work zstd bytes < rounds) :
    ∃ output next isComplete, inflate rounds zstd bytes = (output, .ok (next, isComplete)) ∧
      Inflated chunks last next isComplete (read ++ bytes) (written ++ output.flatten) := by
  induction rounds generalizing zstd read written bytes
  case zero => omega
  case succ rounds ih =>
    obtain ⟨status, hrun, hp⟩ := hz.proceeds hf hb outputSize_pos hn
    have hnext := Zstd.Follows.run hf hb outputSize_pos hrun
    rw [inflate, hrun]
    dsimp only
    split
    case isTrue hend =>
      have hall : bytes.take status.read = bytes := take_of_length_le (drop_eq_nil_iff.mp hend.1)
      have hc := hp.complete
      rw [hall] at hnext hc
      have hwritten : read ++ bytes = Zstd.frame Zstd.newEncoder chunks last →
          written ++ status.written = chunks.flatten ++ last := by
        intro hframe
        rcases hend.2 with hless | hzero
        · exact hp.flushed hless hframe
        · exact (hc.mp hzero).2
      refine ⟨_, _, _, rfl, ?_⟩
      rw [flatten_singleton]
      refine ⟨hnext, ?_, hwritten⟩
      rw [decide_eq_true_eq, hc]
      exact ⟨And.left, fun hframe => ⟨hframe, hwritten hframe⟩⟩
    case isFalse hmore =>
      -- The output is full, so that something has been written.
      have hfull : outputSize ≤ status.written.length := by
        rw [← Nat.not_lt]
        intro hless
        exact hmore ⟨drop_eq_nil_of_le (Nat.le_of_eq (hp.greedy hless).symm), .inl hless⟩
      have hne : ¬ (status.read = 0 ∧ status.written = []) := by
        intro hnil
        rw [hnil.2] at hfull
        exact absurd outputSize_pos (Nat.not_lt.mpr hfull)
      have hrest : read ++ bytes.take status.read ++ bytes.drop status.read ++ later =
          Zstd.frame Zstd.newEncoder chunks last := by
        rw [append_assoc read, take_append_drop, hb]
      have hopen : ¬ (read ++ bytes.take status.read = Zstd.frame Zstd.newEncoder chunks last ∧
          written ++ status.written = chunks.flatten ++ last) := by
        intro hc
        rw [← hc.1, append_assoc, append_right_eq_self, append_eq_nil_iff] at hrest
        exact hmore ⟨hrest.1, .inr (hp.complete.mpr hc)⟩
      have hwork := Zstd.work_lt hrun hne
      obtain ⟨output, next, isComplete, hi, hinflated⟩ := ih hnext hrest hopen (by omega)
      rw [if_neg hne, hi]
      refine ⟨_, _, _, rfl, ?_⟩
      rw [append_assoc, append_assoc, take_append_drop] at hinflated
      exact hinflated

-- The bytes that have been unpacked, and what has been handed over.
inductive Inflates (chunks : List (List UInt8)) (last : List UInt8) :
    (compress : Bool) → (payload : List UInt8) → Decoder → (read written : List UInt8) → Prop
  | plain {read : List UInt8} {decoder : Decoder} : decoder.zstd = none →
    decoder.frameComplete = true →
    Inflates chunks last false (chunks.flatten ++ last) decoder read read
  | zstd {decoder : Decoder} {zstd : Zstd.Decoder} {read written : List UInt8} :
    decoder.zstd = some zstd → Inflated chunks last zstd decoder.frameComplete read written →
    Inflates chunks last true (Zstd.frame Zstd.newEncoder chunks last) decoder read written

-- Decompression changes nothing else.
structure SamePacking (decoder next : Decoder) : Prop where
  tail : next.tail = decoder.tail
  escapes : next.escapes = decoder.escapes
  binary : next.binary = decoder.binary
  escaped : next.escaped = decoder.escaped
  padded : next.padded = decoder.padded
  seenInput : next.seenInput = decoder.seenInput

theorem decompress_step (hz : Zstd.Lossless) (h : Inflates chunks last compress payload decoder read written)
    (hb : read ++ bytes ++ later = payload) :
    ∃ output next, decoder.decompress bytes = (output, .ok next) ∧
      Inflates chunks last compress payload next (read ++ bytes) (written ++ output.flatten) ∧
      decoder.SamePacking next := by
  cases h
  case plain hd hc =>
    rw [decompress, hd]
    refine ⟨_, _, rfl, ?_, rfl, rfl, rfl, rfl, rfl, rfl⟩
    rw [flatten_singleton]
    exact .plain hd hc
  case zstd zstd hd hi =>
    have hend : decoder.frameComplete = true → bytes = [] := by
      intro hc
      rw [hi.isComplete.mp hc, append_assoc, append_right_eq_self, append_eq_nil_iff] at hb
      exact hb.1
    rw [decompress, hd]
    dsimp only
    rw [if_neg fun hboth => hboth.2 (hend hboth.1)]
    split
    case isTrue hmore =>
      have hopen : ¬ (read = Zstd.frame Zstd.newEncoder chunks last ∧
          written = chunks.flatten ++ last) := by
        rintro ⟨hread, -⟩
        have hc := hi.isComplete.mpr hread
        rcases hmore with hne | hf
        · exact hne (hend hc)
        · rw [hc] at hf
          cases hf
      obtain ⟨output, next, isComplete, hrun, hinflated⟩ :=
        inflate_step hz hi.follows hb hopen (Nat.lt_succ_self _)
      rw [hrun]
      exact ⟨_, _, rfl, .zstd rfl hinflated, rfl, rfl, rfl, rfl, rfl, rfl⟩
    case isFalse hmore =>
      have hnil : bytes = [] := not_not.mp fun hne => hmore (.inl hne)
      refine ⟨_, _, rfl, ?_, rfl, rfl, rfl, rfl, rfl, rfl⟩
      rw [hnil, append_nil, flatten_nil, append_nil]
      exact .zstd hd hi

end Inflate

section Streams

-- A decoder in the middle of a stream, with what is still to come of it.
def Reached (chunks : List (List UInt8)) (last : List UInt8) (compress : Bool)
    (payload wire : List UInt8) (cut : Bool) (decoder : Decoder) (left written : List UInt8) : Prop :=
  ∃ read todo, decoder.Unpacks left todo cut ∧ Inflates chunks last compress payload decoder read written ∧
    read ++ todo = payload ∧ (decoder.seenInput = false → left = wire)

-- Nothing is missing.
def Finished (decoder : Decoder) : Prop :=
  decoder.tail = [] ∧ decoder.escaped = false ∧ decoder.frameComplete = true

theorem SamePacking.unpacks {next : Decoder} (hs : decoder.SamePacking next)
    (h : decoder.Unpacks left todo cut) : next.Unpacks left todo cut := by
  cases h
  case binary hb ht hr =>
    refine .binary (hs.binary.trans hb) (hs.tail.trans ht) ?_
    rw [hs.escapes, hs.escaped, hr]
  case base64 hb he hc ht hp hl =>
    exact .base64 (hs.binary.trans hb) (hs.escaped.trans he) hc (hs.tail ▸ ht) (hs.padded ▸ hp)
      (hs.tail ▸ hl)

theorem SameStage.inflates {next : Decoder} {read : List UInt8} (hs : decoder.SameStage next)
    (h : Inflates chunks last compress payload decoder read written) :
    Inflates chunks last compress payload next read written := by
  cases h
  case plain hd hc => exact .plain (hs.zstd.trans hd) (hs.frameComplete.trans hc)
  case zstd zstd hd hi =>
    rw [← hs.frameComplete] at hi
    exact .zstd (hs.zstd.trans hd) hi

theorem decode_step (hz : Zstd.Lossless)
    (h : Reached chunks last compress payload wire cut decoder (input ++ later) written)
    (hn : ¬ (finish = true ∧ input = [] ∧ decoder.seenInput = false)) :
    ∃ output next, Reached chunks last compress payload wire cut next later (written ++ output.flatten) ∧
      decoder.decode input finish =
        if finish = true ∧ (next.tail ≠ [] ∨ next.escaped = true ∨ next.frameComplete = false) then
          (output, .error "truncated trzsz data stream")
        else (output, .ok next) := by
  obtain ⟨read, todo, hu, hi, hp, hseen⟩ := h
  generalize hd : { decoder with seenInput := decoder.seenInput || input ≠ [] } = started
  have hstart : started.Unpacks (input ++ later) todo cut := by
    rw [← hd]
    cases hu
    case binary hb ht hr => exact .binary hb ht hr
    case base64 hb he hc ht hp hl => exact .base64 hb he hc ht hp hl
  have hinflates : Inflates chunks last compress payload started read written := by
    rw [← hd]
    cases hi
    case plain hd hc => exact .plain hd hc
    case zstd zstd hd hi => exact .zstd hd hi
  obtain ⟨bytes, unpacked, rest, hunpack, rfl, hrest, hsame⟩ := unpack_step hstart
  rw [← append_assoc] at hp
  obtain ⟨output, next, hdecompress, hnext, hpacking⟩ :=
    decompress_step hz (hsame.inflates hinflates) hp
  refine ⟨output, next, ⟨_, _, hpacking.unpacks hrest, hnext, hp, ?_⟩, ?_⟩
  · intro hno
    simp [hpacking.seenInput, hsame.seenInput, ← hd] at hno
    simpa [hno.2] using hseen hno.1
  · rw [decode, if_neg hn, hd, hunpack]
    dsimp only
    rw [hdecompress]

theorem decodeAll_reached (hz : Zstd.Lossless)
    (h : Reached chunks last compress payload wire cut decoder (pieces.flatten ++ final ++ later) written) :
    ∃ output next, Reached chunks last compress payload wire cut next later (written ++ output.flatten) ∧
      (decoder.decodeAll pieces final = (output, .ok next) ∧ (next.Finished ∨ later = wire) ∨
        decoder.decodeAll pieces final = (output, .error "truncated trzsz data stream") ∧
          ¬ next.Finished) := by
  induction pieces generalizing decoder written
  case nil =>
    rw [flatten_nil, nil_append] at h
    rw [decodeAll]
    by_cases hn : final = [] ∧ decoder.seenInput = false
    · obtain ⟨rfl, hs⟩ := hn
      refine ⟨[], decoder, by rw [flatten_nil, append_nil]; exact h, .inl ⟨?_, .inr ?_⟩⟩
      · rw [decode, if_pos ⟨rfl, rfl, hs⟩]
      · obtain ⟨_, _, -, -, -, hseen⟩ := h
        exact hseen hs
    · obtain ⟨output, next, hnext, hd⟩ := decode_step hz h (fun hf => hn hf.2)
      refine ⟨output, next, hnext, ?_⟩
      rw [hd]
      split
      case isTrue ht => exact .inr ⟨rfl, fun hf => by simp [hf.1, hf.2.1, hf.2.2] at ht⟩
      case isFalse ht =>
        simp only [true_and, not_or, not_not, Bool.not_eq_true, Bool.not_eq_false] at ht
        exact .inl ⟨rfl, .inl ht⟩
  case cons piece pieces ih =>
    rw [flatten_cons, append_assoc, append_assoc] at h
    obtain ⟨output, next, hnext, hd⟩ :=
      decode_step hz h (fun hf => absurd hf.1 Bool.false_ne_true)
    rw [if_neg (fun hf => absurd hf.1 Bool.false_ne_true)] at hd
    rw [← append_assoc] at hnext
    obtain ⟨more, final, hfinal, hrun⟩ := ih hnext
    refine ⟨output ++ more, final, ?_, ?_⟩
    · rw [flatten_append, ← append_assoc]
      exact hfinal
    · rw [decodeAll, hd]
      dsimp only
      rcases hrun with ⟨hrun, hf⟩ | ⟨hrun, hf⟩
      all_goals simp [hrun, hf]

theorem reached_end (h : Reached chunks last compress payload wire false decoder [] written) :
    decoder.Finished ∧ written = chunks.flatten ++ last := by
  obtain ⟨read, todo, hu, hi, hp, -⟩ := h
  obtain ⟨rfl, ht, he⟩ := unpacks_nil hu
  rw [append_nil] at hp
  subst hp
  cases hi
  case plain hd hc => exact ⟨⟨ht, he, hc⟩, rfl⟩
  case zstd zstd hd hi => exact ⟨⟨ht, he, hi.isComplete.mpr rfl⟩, hi.written rfl⟩

theorem not_finished (hne : left ≠ [])
    (h : Reached chunks last true payload wire false decoder left written) : ¬ decoder.Finished := by
  rintro ⟨ht, he, hc⟩
  obtain ⟨read, todo, hu, hi, hp, -⟩ := h
  cases hi
  case zstd zstd hd hi =>
    rw [hi.isComplete.mp hc, append_right_eq_self] at hp
    rw [hp] at hu
    exact hne (unpacks_empty hu ht he)

end Streams

end Decoder

section Runs

variable {config : Config} {table : List (Nat × Nat)} {compress : Bool}
variable {chunks : List (List UInt8)} {last : List UInt8}

omit [Zstd] in
theorem validate_table (h : config.validate = .ok ()) : ∃ table, config.escapeTable = .ok table := by
  rw [Config.validate] at h
  split at h
  case isTrue => cases ht : config.escapeTable <;> simp_all [Except.map]
  case isFalse => cases h

theorem start_inflates (hz : Zstd.Lossless) :
    Decoder.Inflates chunks last compress ((Encoder.start config table compress).payload chunks last)
      (Decoder.start config table compress) [] [] := by
  cases compress
  case false => exact .plain rfl rfl
  have hne := hz.frame_ne_nil chunks last
  refine .zstd rfl ⟨.new, ?_, fun h => absurd h.symm hne⟩
  exact ⟨nofun, fun h => absurd h.symm hne⟩

section

variable (h : config.escapeTable = .ok table)
include h

theorem start_unpacks
    (hl : config.binary = true → (escapes config table).EscapesLeader) :
    (Decoder.start config table compress).Unpacks
      ((Encoder.start config table compress).encodeAll chunks last)
      ((Encoder.start config table compress).payload chunks last) false := by
  cases hb : config.binary
  case true =>
    rw [Encoder.encodeAll_binary hb]
    exact .binary hb rfl (Escape.Table.run_escape (lawful_escapes h) (hl hb))
  case false =>
    rw [Encoder.encodeAll_base64 hb]
    exact .base64 hb rfl rfl (Nat.zero_lt_succ 3) (nofun) rfl

theorem encodeStream_eq :
    encodeStream config compress chunks last =
      .ok ((Encoder.start config table compress).encodeAll chunks last) := by
  rw [encodeStream, Encoder.new, h]
  rfl

theorem decodeStream_eq :
    decodeStream config compress chunks last =
      (Decoder.start config table compress).decodeAll chunks last := by
  rw [decodeStream, Decoder.new, h]
  rfl

end

section

variable (hz : Zstd.Lossless) (h : config.escapeTable = .ok table)
include hz h

theorem decodeStream_cut (hb : config.binary = true)
    (hr : Transducer.run (escapes config table).unescape false wire = ⟨data, true, false⟩)
    (hp : pieces.flatten ++ final = wire) :
    ∃ output, decodeStream config false pieces final =
      (output, .error "truncated trzsz data stream") := by
  have hstart : Decoder.Reached [] data false data wire true (Decoder.start config table false)
      (pieces.flatten ++ final ++ []) [] := by
    rw [append_nil, hp]
    exact ⟨[], data, .binary hb rfl hr, .plain rfl rfl, rfl, fun _ => rfl⟩
  obtain ⟨output, next, hnext, hrun⟩ := Decoder.decodeAll_reached hz hstart
  rw [decodeStream_eq h]
  rcases hrun with ⟨-, hf | hw⟩ | ⟨hrun, -⟩
  · obtain ⟨_, _, hu, -, -, -⟩ := hnext
    cases (Decoder.unpacks_nil hu).2.2.symm.trans hf.2.1
  · rw [← hw] at hr
    cases hr
  · exact ⟨output, hrun⟩

-- A table in which the leader of an escape is missing does not give the leader back.
theorem escapesLeader_of_roundTrips
    (hb : config.binary = true) (hr : RoundTrips config) : (escapes config table).EscapesLeader := by
  intro ha hc
  obtain ⟨wire, he, hround, -⟩ := hr false [] [238]
  have hwire : wire = [238] := by
    rw [encodeStream_eq h, Encoder.encodeAll_binary hb] at he
    rw [← Except.ok.inj he]
    exact Escape.Table.escape_leader hc
  obtain ⟨output, decoder, hok, -⟩ := hround [] [238] hwire.symm
  obtain ⟨output', herror⟩ := decodeStream_cut hz h hb (Escape.Table.run_leader ha)
    (@rfl _ ([].flatten ++ [238]))
  rw [hok] at herror
  cases herror

section

variable (hl : config.binary = true → (escapes config table).EscapesLeader)
include hl

theorem start_reached :
    Decoder.Reached chunks last compress ((Encoder.start config table compress).payload chunks last)
      ((Encoder.start config table compress).encodeAll chunks last) false
      (Decoder.start config table compress)
      ((Encoder.start config table compress).encodeAll chunks last) [] :=
  ⟨[], _, start_unpacks h hl, start_inflates hz, rfl, fun _ => rfl⟩

theorem roundTrips_of_escapesLeader : RoundTrips config := by
  intro compress chunks last
  have hstart := @start_reached _ config table compress chunks last hz h hl
  refine ⟨_, encodeStream_eq h, ?_, ?_⟩
  · intro pieces final hp
    rw [← hp, ← append_nil (pieces.flatten ++ final)] at hstart
    obtain ⟨output, next, hnext, hrun⟩ := Decoder.decodeAll_reached hz hstart
    obtain ⟨hf, hw⟩ := Decoder.reached_end hnext
    rw [decodeStream_eq h]
    rcases hrun with ⟨hrun, -⟩ | ⟨-, hn⟩
    · exact ⟨output, next, hrun, hw⟩
    · exact absurd hf hn
  · intro pieces final ht
    generalize hfirst : pieces.flatten ++ final = first at ht
    cases ht
    case frame rest hrest hne hw =>
      rw [← hw, ← hfirst] at hstart
      obtain ⟨output, next, hnext, hrun⟩ := Decoder.decodeAll_reached hz hstart
      rw [decodeStream_eq h]
      rcases hrun with ⟨-, hf | hl⟩ | ⟨hrun, -⟩
      · exact absurd hf (Decoder.not_finished hrest hnext)
      · rw [self_eq_append_left] at hl
        exact absurd (hfirst.symm.trans hl) hne
      · exact ⟨output, hrun⟩
    case escape table' before after byte code hb ht hd hc =>
      obtain rfl : table = table' := Except.ok.inj (h.symm.trans ht)
      have hlaw := lawful_escapes h
      exact decodeStream_cut hz h hb
        (Escape.Table.run_escape_leader hlaw (hl hb) (hlaw.active hc)) hfirst

end

end

end Runs

-- Data arrives as it was sent, unless a table of escapes lacks the leader of the escapes.
theorem round_trips_iff (hz : Zstd.Lossless) {config : Config} (h : config.validate = .ok ()) :
    RoundTrips config ↔
      (config.binary = true → config.escapeChars ≠ [] → EscapesLeader config) := by
  obtain ⟨table, ht⟩ := validate_table h
  have hactive : (escapes config table).active = true ↔ config.escapeChars ≠ [] := by
    rw [escapes, Bool.not_eq_true', isEmpty_eq_false_iff]
  constructor
  · intro hr hb hne
    exact (code_leader ht).mp (escapesLeader_of_roundTrips hz ht hb hr (hactive.mpr hne))
  · intro hl
    refine roundTrips_of_escapesLeader hz ht fun hb ha => ?_
    exact (code_leader ht).mpr (hl hb (hactive.mp ha))

end NyaTerm.Trzsz.Codec

-- Frames in which bytes are marked and stored as they are.
namespace NyaTerm.Trzsz.Codec.Sample

def marked (data : List UInt8) : List UInt8 :=
  data.flatMap fun byte => [1, byte]

inductive Place
  | mark
  | byte
  | ended
  deriving DecidableEq

def readStored : Place → (input : List UInt8) → (space : Nat) → Status Place
  | place, [], _ => ⟨0, [], if place = .ended then 0 else 1, place⟩
  | .ended, _ :: _, _ => ⟨0, [], 0, .ended⟩
  | .byte, _ :: _, 0 => ⟨0, [], 1, .byte⟩
  | .mark, b :: input, space =>
    let later := readStored (if b = 0 then .ended else .byte) input space
    { later with read := later.read + 1 }
  | .byte, b :: input, space + 1 =>
    let later := readStored .mark input space
    { later with read := later.read + 1, written := b :: later.written }

theorem readStored_progress {input : List UInt8} {space : Nat} :
    (readStored place input space).read ≤ input.length ∧
      ((readStored place input space).read = 0 → (readStored place input space).written = []) := by
  fun_induction readStored place input space
  case case4 ih | case5 ih => exact ⟨Nat.succ_le_succ ih.1, nofun⟩
  all_goals simp

@[reducible]
def stored : Zstd where
  Encoder := Unit
  newEncoder := ()
  write _ input := (marked input, ())
  finish _ := [0]
  Decoder := Place
  newDecoder := .mark
  runOnBuffers place input space := some (readStored place input space)
  work _ input := input.length
  work_lt := by
    intro place input space status h hn
    obtain rfl := Option.some.inj h
    obtain ⟨hle, hnil⟩ := @readStored_progress place input space
    have hpos : (readStored place input space).read ≠ 0 := fun h0 => hn ⟨h0, hnil h0⟩
    rw [length_drop]
    omega

attribute [local instance] stored

-- What is still to come of a frame.
inductive Rest : Place → (todo left : List UInt8) → Prop
  | mark {todo : List UInt8} : Rest .mark todo (marked todo ++ [0])
  | byte {byte : UInt8} {todo : List UInt8} : Rest .byte (byte :: todo) (byte :: (marked todo ++ [0]))
  | ended : Rest .ended [] []

theorem rest_nil (h : Rest place todo []) : place = .ended ∧ todo = [] := by
  generalize hl : ([] : List UInt8) = left at h
  cases h <;> simp_all

theorem rest_mark (h : Rest .mark todo (b :: left)) :
    Rest (if b = 0 then .ended else .byte) todo left := by
  generalize hl : b :: left = all at h
  cases h
  cases todo <;> cases hl
  · exact .ended
  · exact .byte

theorem rest_byte (h : Rest .byte todo (b :: left)) :
    ∃ rest, todo = b :: rest ∧ Rest .mark rest left := by
  cases h
  case byte rest => exact ⟨rest, rfl, .mark⟩

theorem readStored_rest {todo input later : List UInt8} {space : Nat}
    (h : Rest place todo (input ++ later)) :
    ((readStored place input space).written.length < space →
      (readStored place input space).read = input.length) ∧
    ((readStored place input space).remaining = 0 ↔ (readStored place input space).decoder = .ended) ∧
    ∃ rest, todo = (readStored place input space).written ++ rest ∧
      Rest (readStored place input space).decoder rest
        (input.drop (readStored place input space).read ++ later) := by
  fun_induction readStored place input space generalizing todo
  case case1 place space =>
    refine ⟨fun _ => rfl, ?_, todo, rfl, h⟩
    simp
  case case2 => cases h
  case case3 => exact ⟨fun h0 => absurd h0 (Nat.lt_irrefl 0), by decide, todo, rfl, h⟩
  case case4 b input space next ih =>
    obtain ⟨hg, hr, hrest⟩ := ih (rest_mark h)
    exact ⟨fun hl => congrArg (· + 1) (hg hl), hr, hrest⟩
  case case5 b input space next ih =>
    obtain ⟨todo, rfl, ht⟩ := rest_byte h
    obtain ⟨hg, hr, rest, hw, hrest⟩ := ih ht
    refine ⟨fun hl => congrArg (· + 1) (hg (Nat.lt_of_succ_lt_succ hl)), hr, rest, ?_, hrest⟩
    rw [hw]
    rfl

theorem follows_rest {read : List UInt8} (h : Zstd.Follows (marked data ++ [0]) place read written) :
    ∃ todo left, Rest place todo left ∧ read ++ left = marked data ++ [0] ∧ written ++ todo = data := by
  induction h
  case new => exact ⟨data, _, .mark, rfl, rfl⟩
  case run place read written input later space status hf hb hs hr ih =>
    obtain ⟨todo, left, hrest, hleft, htodo⟩ := ih
    obtain rfl := Option.some.inj hr
    rw [← hleft, append_assoc] at hb
    obtain rfl := append_cancel_left hb
    obtain ⟨-, -, rest, rfl, hnext⟩ := @readStored_rest place todo input later space hrest
    refine ⟨rest, _, hnext, ?_, by rw [append_assoc, htodo]⟩
    rw [← hleft, append_assoc, ← append_assoc (input.take _), take_append_drop]

theorem stored_frame :
    Zstd.frame Zstd.newEncoder chunks last = marked (chunks.flatten ++ last) ++ [0] := by
  induction chunks
  case nil => rfl
  case cons chunk chunks ih =>
    have hframe : Zstd.frame Zstd.newEncoder (chunk :: chunks) last =
      marked chunk ++ Zstd.frame Zstd.newEncoder chunks last := rfl
    rw [hframe, ih, flatten_cons, append_assoc chunk, ← append_assoc (marked chunk)]
    exact congrArg (· ++ [0]) flatMap_append.symm

theorem stored_proceeds {read : List UInt8}
    (hf : Zstd.Follows (marked data ++ [0]) place read written)
    (hb : read ++ input ++ later = marked data ++ [0]) :
    Zstd.Proceeds (marked data ++ [0]) data read written input space (readStored place input space) := by
  obtain ⟨todo, left, hrest, hleft, htodo⟩ := follows_rest hf
  rw [← hleft, append_assoc] at hb
  obtain rfl := append_cancel_left hb
  obtain ⟨hg, hr, rest, rfl, hnext⟩ := @readStored_rest place todo input later space hrest
  have hle := (@readStored_progress place input space).1
  generalize readStored place input space = status at hg hr hnext htodo hle ⊢
  have hsplit : read ++ input.take status.read ++ (input.drop status.read ++ later) =
      marked data ++ [0] := by
    rw [← hleft, append_assoc, ← append_assoc (input.take _), take_append_drop]
  have hend : read ++ input.take status.read = marked data ++ [0] →
      status.decoder = .ended ∧ written ++ status.written = data := by
    intro hframe
    rw [hframe, append_right_eq_self] at hsplit
    rw [hsplit] at hnext
    obtain ⟨hended, rfl⟩ := rest_nil hnext
    rw [append_nil] at htodo
    exact ⟨hended, htodo⟩
  refine ⟨hle, hg, ?_, ?_⟩
  · intro hless hframe
    refine (hend ?_).2
    rw [hg hless, take_length, hframe]
  · rw [hr]
    constructor
    · intro hended
      rw [hended] at hnext
      generalize hl : input.drop status.read ++ later = left at hnext hsplit
      cases hnext
      rw [append_nil] at hsplit htodo
      exact ⟨hsplit, htodo⟩
    · exact fun h => (hend h.1).1

theorem stored_lossless : Zstd.Lossless where
  frame_ne_nil chunks last := by
    rw [stored_frame]
    exact append_ne_nil_of_right_ne_nil _ (cons_ne_nil _ _)
  proceeds {chunks last decoder read written input later space} hf hb _ _ := by
    rw [stored_frame] at hf hb ⊢
    exact ⟨_, rfl, stored_proceeds hf hb⟩

-- The leader stands for itself, and zero is escaped.
def escaping : Config :=
  { Config.localDefault with
    binary := true, escapeChars := [("\u00ee", "\u00ee\u00ee"), ("\x00", "\u00eeA")] }

theorem round_trips_iff_escaping : escaping.validate = .ok () ∧ RoundTrips escaping :=
  ⟨rfl, (round_trips_iff stored_lossless rfl).mpr fun _ _ => ⟨_, mem_cons_self, rfl⟩⟩

-- Zero is escaped, but not the leader.
def unescaped : Config :=
  { Config.localDefault with binary := true, escapeChars := [("\x00", "\u00eeA")] }

theorem leader_does_not_round_trip :
    unescaped.validate = .ok () ∧ Zstd.Lossless ∧
    encodeStream unescaped false [] [238, 65] = .ok [238, 65] ∧
    ∃ decoder, decodeStream unescaped false [] [238, 65] = ([[0]], .ok decoder) :=
  ⟨rfl, stored_lossless, rfl, _, rfl⟩

end NyaTerm.Trzsz.Codec.Sample
