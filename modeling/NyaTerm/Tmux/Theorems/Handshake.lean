import NyaTerm.Lib.Fallible
import NyaTerm.Tmux.Handshake

open List

namespace NyaTerm.Tmux.Probe

theorem not_isPrefixOf_of_head {word line : Text} (hw : word.head? = some c)
    (h : line.head? ≠ some c) : word.isPrefixOf line = false := by
  rw [Bool.eq_false_iff]
  intro hprefix
  obtain ⟨rest, rfl⟩ := isPrefixOf_iff_prefix.mp hprefix
  exact h (by rw [head?_append, hw]; rfl)

theorem parseLine_of_head {line : Text} (h : line.head? ≠ some '%') : parseLine line = none := by
  have hexpect : expect '%' line = none := if_neg h
  rw [parseLine, not_isPrefixOf_of_head rfl h, if_neg Bool.false_ne_true,
    not_isPrefixOf_of_head rfl h, if_neg Bool.false_ne_true, hexpect]
  rfl

theorem marker_token (uuid : Text) : marker (parseLine (tokenOf uuid)) = .none := by
  have hcons : tokenOf uuid = 'n' :: ("yaterm_".toList ++ uuid) := rfl
  rw [parseLine_of_head (by rw [hcons, head?_cons]; decide)]
  rfl

variable {token command : Text} {block : Option Block}
variable {lines : List Bytes} {id : BlockId}

theorem line_eq (h : readText bytes = some text) :
    line token command block bytes = mark token command text block (marker (parseLine text)) := by
  rw [line, h]

theorem marks_iff : marks bytes m ↔ ∃ text, readText bytes = some text ∧ marker (parseLine text) = m :=
  Option.map_eq_some_iff

theorem line_none (h : line token command none bytes = .ok block) :
    IsQuiet command bytes ∧ block = none ∨
      ∃ id, marks bytes (.begin id) ∧ block = some ⟨id, false, 0⟩ := by
  rw [line] at h
  split at h
  case h_1 => cases h
  case h_2 text htext =>
    cases hm : marker (parseLine text) <;> rw [hm] at h
    case begin id =>
      cases h
      exact .inr ⟨id, marks_iff.mpr ⟨text, htext, hm⟩, rfl⟩
    case «end» => cases h
    case error | exit => cases h
    case session session =>
      cases h
      exact .inl ⟨⟨text, htext, .inr (.inl ⟨session, hm⟩)⟩, rfl⟩
    case notification =>
      cases h
      exact .inl ⟨⟨text, htext, .inl hm⟩, rfl⟩
    case none =>
      simp only [mark] at h
      split at h
      case isTrue => cases h
      case isFalse hne =>
        cases h
        refine .inl ⟨⟨text, htext, .inr (.inr ⟨hm, ?_⟩)⟩, rfl⟩
        exact not_not.mp fun hc => hne ⟨trivial, hc⟩

theorem line_quiet (h : IsQuiet command bytes) : line token command none bytes = .ok none := by
  obtain ⟨text, htext, hm | ⟨session, hm⟩ | ⟨hm, rfl⟩⟩ := h
  · rw [line_eq htext, hm]; rfl
  · rw [line_eq htext, hm]; rfl
  · rw [line_eq htext, hm]
    exact if_neg fun h => h.2 rfl

theorem line_begin (h : marks bytes (.begin id)) :
    line token command none bytes = .ok (some ⟨id, false, 0⟩) := by
  obtain ⟨text, htext, hm⟩ := marks_iff.mp h
  rw [line_eq htext, hm]
  rfl

theorem line_some (h : line token command (some b) bytes = .ok block) : ∃ text,
    readText bytes = some text ∧
      block = some { b with matched := text = token, count := b.count + 1 } := by
  rw [line] at h
  split at h
  case h_1 => cases h
  case h_2 text htext =>
    refine ⟨text, htext, ?_⟩
    cases hm : marker (parseLine text) <;> rw [hm] at h
    case «end» =>
      simp only [mark] at h
      split at h <;> cases h
    all_goals cases h
    all_goals rfl

theorem line_body (hm : marker (parseLine text) = .none) (h : readText bytes = some text) :
    line token command (some b) bytes =
      .ok (some { b with matched := text = token, count := b.count + 1 }) := by
  rw [line_eq h, hm]
  rfl

theorem line_end (h : marks bytes (.end id)) : line token command block bytes =
    .error (if block = some ⟨id, true, 1⟩ then .confirmed else .rejected) := by
  obtain ⟨text, htext, hm⟩ := marks_iff.mp h
  rw [line_eq htext, hm, mark]
  split <;> rfl

theorem line_mark_error (h : marks bytes .error) :
    line token command block bytes = .error .rejected := by
  obtain ⟨text, htext, hm⟩ := marks_iff.mp h
  rw [line_eq htext, hm, mark]

theorem line_confirmed (h : line token command block bytes = .error .confirmed) :
    ∃ id, marks bytes (.end id) ∧ block = some ⟨id, true, 1⟩ := by
  rw [line] at h
  split at h
  case h_1 => cases h
  case h_2 text htext =>
    cases hm : marker (parseLine text) <;> rw [hm] at h
    case «end» id =>
      simp only [mark] at h
      split at h
      case isTrue hb => exact ⟨id, marks_iff.mpr ⟨text, htext, hm⟩, hb⟩
      case isFalse => cases h
    case begin id =>
      simp only [mark] at h
      split at h <;> cases h
    case error | exit => cases h
    all_goals
      simp only [mark] at h
      split at h
      · cases h
      · split at h <;> cases h

theorem line_error (hexit : ¬ marks bytes .exit) (hend : ∀ id, ¬ marks bytes (.end id))
    (h : line token command (some b) bytes = .error outcome) : outcome = .rejected := by
  rw [line] at h
  split at h
  case h_1 => cases h; rfl
  case h_2 text htext =>
    have hmarks : ∀ m, marker (parseLine text) = m → marks bytes m :=
      fun m hm => marks_iff.mpr ⟨text, htext, hm⟩
    cases hm : marker (parseLine text) <;> rw [hm] at h
    case «end» id => exact absurd (hmarks _ hm) (hend id)
    case exit => exact absurd (hmarks _ hm) hexit
    all_goals cases h
    all_goals rfl

theorem foldlM_none (h : lines.foldlM (line token command) none = .ok (some b)) :
    ∃ before first body id, lines = before ++ first :: body ∧ (∀ line ∈ before, IsQuiet command line) ∧
      marks first (.begin id) ∧
      body.foldlM (line token command) (some ⟨id, false, 0⟩) = .ok (some b) := by
  induction lines
  case nil => cases h
  case cons first lines ih =>
    obtain ⟨next, hnext, hrest⟩ := Fallible.bind_eq_ok.mp h
    obtain ⟨hquiet, rfl⟩ | ⟨id, hbegin, rfl⟩ := line_none hnext
    · obtain ⟨before, first', body, id, rfl, hbefore, hfirst, hbody⟩ := ih hrest
      refine ⟨first :: before, first', body, id, rfl, ?_, hfirst, hbody⟩
      rw [forall_mem_cons]
      exact ⟨hquiet, hbefore⟩
    · exact ⟨[], first, lines, id, rfl, fun _ h => absurd h not_mem_nil, hbegin, hrest⟩

theorem foldlM_quiet (h : ∀ line ∈ lines, IsQuiet command line) :
    lines.foldlM (line token command) none = .ok none := by
  induction lines
  case nil => rfl
  case cons first lines ih =>
    rw [forall_mem_cons] at h
    rw [foldlM_cons, line_quiet h.1]
    exact ih h.2

theorem foldlM_some (h : lines.foldlM (line token command) (some b) = .ok block) : ∃ b',
    block = some b' ∧ b'.id = b.id ∧ b'.count = b.count + lines.length := by
  induction lines generalizing b
  case nil => cases h; exact ⟨b, rfl, rfl, rfl⟩
  case cons first lines ih =>
    obtain ⟨next, hnext, hrest⟩ := Fallible.bind_eq_ok.mp h
    obtain ⟨text, -, rfl⟩ := line_some hnext
    obtain ⟨b', hb', hid, hcount⟩ := ih hrest
    refine ⟨b', hb', hid, ?_⟩
    rw [hcount, length_cons]
    dsimp only
    omega

theorem foldlM_error (hopen : ∀ line ∈ lines, ¬ marks line .exit ∧ ∀ id, ¬ marks line (.end id))
    (h : lines.foldlM (line token command) (some b) = .error outcome) : outcome = .rejected := by
  induction lines generalizing b
  case nil => cases h
  case cons first lines ih =>
    rw [forall_mem_cons] at hopen
    rw [foldlM_cons] at h
    cases hline : line token command (some b) first
    case error =>
      rw [hline] at h
      cases h
      exact line_error hopen.1.1 hopen.1.2 hline
    case ok next =>
      rw [hline] at h
      obtain ⟨text, -, rfl⟩ := line_some hline
      exact ih hopen.2 h

theorem foldlM_token
    (h : body.foldlM (line token command) (some ⟨id, false, 0⟩) = .ok (some ⟨id', true, 1⟩)) :
    id = id' ∧ ∃ line, body = [line] ∧ readText line = some token := by
  obtain ⟨b', heq, hid, hcount⟩ := foldlM_some h
  cases heq
  dsimp only at hid hcount
  obtain ⟨line, rfl⟩ := length_eq_one_iff.mp (by omega : body.length = 1)
  refine ⟨hid.symm, line, rfl, ?_⟩
  obtain ⟨next, hnext, hrest⟩ := Fallible.bind_eq_ok.mp h
  cases hrest
  obtain ⟨text, htext, heq⟩ := line_some hnext
  have hmatched : decide (text = token) = true := (congrArg Block.matched (Option.some.inj heq)).symm
  rw [htext, of_decide_eq_true hmatched]

section Stream

variable {after : Bytes}

theorem not_marks (h : readText bytes = some (tokenOf uuid)) (hm : m ≠ .none) : ¬ marks bytes m := by
  intro hmarks
  obtain ⟨text, htext, htoken⟩ := marks_iff.mp hmarks
  rw [h] at htext
  cases htext
  exact hm htoken.symm

section

variable (response : Response command stream after)
include response

theorem process_response :
    Lines.process newline (line token command) none [] stream =
      Lines.process newline (line token command) (some ⟨response.id, false, 0⟩) []
        (Lines.join newline response.body ++ (response.last ++ newline :: after)) := by
  obtain ⟨before, first, body, last, id, id', rfl, hlines, hquiet, hbegin, -, -⟩ := response
  rw [forall_mem_append, forall_mem_append, forall_mem_cons] at hlines
  have heq : Lines.join newline (before ++ first :: body ++ [last]) ++ after =
      Lines.join newline before ++ (first ++ newline ::
        (Lines.join newline body ++ (last ++ newline :: after))) := by
    simp [Lines.join]
  dsimp only
  rw [heq, Lines.process_join hlines.1.1 (foldlM_quiet hquiet)]
  exact Lines.process_ok hlines.1.2.1 (line_begin hbegin)

theorem Response.not_mem_last : newline ∉ response.last :=
  response.lines _ (mem_append_right _ (mem_singleton.mpr rfl))

theorem Response.not_mem_body :
    ∀ line ∈ response.body, newline ∉ line := by
  intro line hl
  exact response.lines line
    (mem_append_left _ (mem_append_right _ (mem_cons_of_mem _ hl)))

theorem process_genuine
    (h : response.IsGenuine (tokenOf uuid)) :
    Lines.process newline (line (tokenOf uuid) command) none [] stream = .ended .confirmed after := by
  obtain ⟨hid, body, hbody, htext⟩ := h
  have hfold : response.body.foldlM (line (tokenOf uuid) command) (some ⟨response.id, false, 0⟩) =
      .ok (some ⟨response.id, true, 1⟩) := by
    rw [hbody, foldlM_cons, line_body (marker_token uuid) htext, decide_eq_true rfl]
    rfl
  rw [process_response response, Lines.process_join response.not_mem_body hfold]
  refine Lines.process_error response.not_mem_last ?_
  have hlast := response.end_last
  rw [hid] at hlast
  rw [nil_append, line_end hlast, if_pos rfl]

end

theorem genuine_of_process
    (h : Lines.process newline (line (tokenOf uuid) command) none [] stream = .ended .confirmed after) :
    ∃ response : Response command stream after, response.IsGenuine (tokenOf uuid) := by
  obtain ⟨lines, last, state, rfl, hlines, hlast, hfold, hend⟩ := Lines.process_eq_ended.mp h
  obtain ⟨id', hmarks, rfl⟩ := line_confirmed hend
  obtain ⟨before, first, body, id, rfl, hquiet, hbegin, hbody⟩ := foldlM_none hfold
  obtain ⟨rfl, line, rfl, htext⟩ := foldlM_token hbody
  refine ⟨⟨before, first, [line], last, id, some id, ?_, ?_, hquiet, hbegin, ?_, hmarks⟩, rfl, line,
    rfl, htext⟩
  · rw [Lines.join_append _ [last]]
    simp [Lines.join]
  · rw [forall_mem_append, forall_mem_singleton]
    exact ⟨hlines, hlast⟩
  · have hopen {m} (hm : m ≠ .none) : ¬ marks line m := not_marks htext hm
    rw [forall_mem_singleton]
    exact ⟨hopen fun h => (by cases h), hopen fun h => (by cases h), fun id => hopen fun h => (by cases h)⟩

theorem process_other (response : Response command stream after) (h : ¬ response.IsGenuine token) :
    ∃ rest, Lines.process newline (line token command) none [] stream = .ended .rejected rest := by
  rw [process_response response]
  cases hfold : response.body.foldlM (line token command) (some ⟨response.id, false, 0⟩)
  case error outcome =>
    obtain rfl := foldlM_error (fun line hl => (response.open_body line hl).2) hfold
    exact Lines.process_join_error response.not_mem_body hfold _
  case ok block =>
    refine ⟨after, ?_⟩
    rw [Lines.process_join response.not_mem_body hfold]
    refine Lines.process_error response.not_mem_last ?_
    have hlast := response.end_last
    rw [nil_append]
    cases hid : response.id' <;> rw [hid] at hlast
    case none => exact line_mark_error hlast
    case some id =>
      rw [line_end hlast, if_neg]
      rintro rfl
      obtain ⟨rfl, hbody⟩ := foldlM_token hfold
      exact h ⟨hid, hbody⟩

end Stream

section Verify

variable {probe : Probe}

-- What the probe makes of the bytes that it has not consumed, followed by others.
def verdict (probe : Probe) (bytes : Bytes) : Lines.Verdict UInt8 (Option Block) Outcome :=
  Lines.process newline (line probe.token probe.command) probe.block []
    (probe.raw.drop probe.consumed ++ bytes)

def progressOf : Lines.Verdict UInt8 (Option Block) Outcome → Progress
  | .waiting _ _ => .pending
  | .ended outcome rest => outcome.progress rest

theorem progress_ne_pending (outcome : Outcome) (rest : Bytes) : outcome.progress rest ≠ .pending := by
  cases outcome <;> exact nofun

theorem scan_spec (probe : Probe) (hr : (probe.raw.drop probe.consumed).length ≤ rounds)
    (hc : probe.consumed ≤ probe.raw.length) : ∃ consumed block,
    scan rounds probe = (progressOf (probe.verdict []), { probe with consumed, block }) ∧
      ∀ block' rest, probe.verdict [] = .waiting block' rest →
        block = block' ∧ consumed ≤ probe.raw.length ∧ probe.raw.drop consumed = rest := by
  induction rounds generalizing probe
  case zero =>
    have hnil : probe.raw.drop probe.consumed = [] := eq_nil_of_length_eq_zero (Nat.le_zero.mp hr)
    have hverdict : probe.verdict [] = .waiting probe.block [] := by rw [verdict, hnil]; rfl
    refine ⟨probe.consumed, probe.block, by rw [hverdict]; rfl, ?_⟩
    intro block' rest h
    rw [hverdict] at h
    cases h
    exact ⟨rfl, hc, hnil⟩
  case succ rounds ih =>
    cases hcut : Lines.cut newline (probe.raw.drop probe.consumed)
    case none =>
      have hverdict : probe.verdict [] = .waiting probe.block (probe.raw.drop probe.consumed) := by
        rw [verdict, append_nil, Lines.process_rest (Lines.cut_eq_none.mp hcut)]
        rfl
      refine ⟨probe.consumed, probe.block, by rw [scan, hcut, hverdict]; rfl, ?_⟩
      intro block' rest h
      rw [hverdict] at h
      cases h
      exact ⟨rfl, hc, rfl⟩
    case some p =>
      obtain ⟨bytes, later⟩ := p
      obtain ⟨hfree, heq⟩ := Lines.eq_of_cut hcut
      have hdrop : probe.raw.drop (probe.consumed + bytes.length + 1) = later := by
        rw [Nat.add_assoc, ← drop_drop, heq, drop_append,
          drop_eq_nil_of_le (Nat.le_succ _)]
        simp
      have hlength : (probe.raw.drop probe.consumed).length = bytes.length + (later.length + 1) := by
        rw [heq, length_append, length_cons]
      rw [length_drop] at hlength hr
      cases hline : line probe.token probe.command probe.block bytes
      case error outcome =>
        have hverdict : probe.verdict [] = .ended outcome later := by
          rw [verdict, append_nil, heq]
          exact Lines.process_error hfree hline
        refine ⟨probe.consumed + bytes.length + 1, probe.block, ?_, ?_⟩
        · rw [scan, hcut]
          dsimp only
          rw [hline, hdrop, hverdict]
          rfl
        · intro block' rest h
          rw [hverdict] at h
          cases h
      case ok next =>
        have hverdict : probe.verdict [] =
            ({ probe with consumed := probe.consumed + bytes.length + 1, block := next } : Probe).verdict
              [] := by
          rw [verdict, verdict, append_nil, append_nil, heq, hdrop]
          exact Lines.process_ok hfree hline
        obtain ⟨consumed, block, hscan, hwaiting⟩ :=
          ih { probe with consumed := probe.consumed + bytes.length + 1, block := next }
            (by dsimp only; rw [hdrop]; omega) (by dsimp only; omega)
        refine ⟨consumed, block, ?_, ?_⟩
        · rw [scan, hcut]
          dsimp only
          rw [hline, hverdict]
          exact hscan
        · rw [hverdict]
          exact hwaiting

theorem feed_spec (hc : probe.consumed ≤ probe.raw.length)
    (hlimit : probe.raw.length + data.length ≤ confirmMaxBytes) : ∃ consumed block,
    probe.feed data =
        (progressOf (probe.verdict data), { probe with raw := probe.raw ++ data, consumed, block }) ∧
      ∀ block' rest, probe.verdict data = .waiting block' rest →
        block = block' ∧ consumed ≤ (probe.raw ++ data).length ∧
          (probe.raw ++ data).drop consumed = rest := by
  have hverdict : probe.verdict data =
      ({ probe with raw := probe.raw ++ data } : Probe).verdict [] := by
    rw [verdict, verdict, append_nil, drop_append_of_le_length hc]
  rw [feed, if_neg (by omega), hverdict]
  refine scan_spec _ ?_ ?_
  · dsimp only
    rw [length_drop, length_append]
    omega
  · dsimp only
    rw [length_append]
    omega

theorem verdict_append (h : probe.verdict data = .ended outcome rest) (later : Bytes) :
    probe.verdict (data ++ later) = .ended outcome (rest ++ later) := by
  rw [verdict, ← append_assoc, Lines.process_append, ← verdict, h]
  rfl

theorem verify_spec (probe : Probe) (chunks : List Bytes) (hc : probe.consumed ≤ probe.raw.length)
    (hfree : newline ∉ probe.raw.drop probe.consumed)
    (hlimit : probe.raw.length + chunks.flatten.length ≤ confirmMaxBytes) :
    (probe.verify chunks).2.2.raw ++ (probe.verify chunks).2.1.flatten =
        probe.raw ++ chunks.flatten ∧
      (∀ block rest, probe.verdict chunks.flatten = .waiting block rest →
        (probe.verify chunks).1 = .pending) ∧
      (∀ outcome rest, probe.verdict chunks.flatten = .ended outcome rest →
        ∃ rest', (probe.verify chunks).1 = outcome.progress rest' ∧
          rest' ++ (probe.verify chunks).2.1.flatten = rest) := by
  induction chunks generalizing probe
  case nil =>
    refine ⟨rfl, fun _ _ _ => rfl, ?_⟩
    intro outcome rest h
    rw [verdict, flatten_nil, append_nil, Lines.process_rest hfree] at h
    cases h
  case cons chunk chunks ih =>
    rw [flatten_cons] at hlimit ⊢
    rw [length_append] at hlimit
    obtain ⟨consumed, block, hfeed, hwaiting⟩ := @feed_spec probe chunk hc (by omega)
    rw [verify]
    cases hv : probe.verdict chunk
    case ended outcome rest =>
      have hne : (probe.feed chunk).1 ≠ .pending := by
        rw [hfeed, hv]
        exact progress_ne_pending outcome rest
      rw [if_neg hne]
      refine ⟨?_, ?_, ?_⟩
      · dsimp only
        rw [hfeed, append_assoc]
      · intro block rest' h
        rw [verdict_append hv] at h
        cases h
      · intro outcome' rest' h
        rw [verdict_append hv] at h
        cases h
        refine ⟨rest, ?_, rfl⟩
        rw [hfeed, hv]
        rfl
    case waiting block' rest =>
      obtain ⟨rfl, hconsumed, hdrop⟩ := hwaiting block' rest hv
      have hpending : (probe.feed chunk).1 = .pending := by rw [hfeed, hv]; rfl
      rw [if_pos hpending, hfeed]
      have hrest : newline ∉ rest := by
        rw [verdict] at hv
        exact Lines.not_mem_waiting not_mem_nil hv
      have hlater : probe.verdict (chunk ++ chunks.flatten) =
          ({ probe with raw := probe.raw ++ chunk, consumed, block } : Probe).verdict chunks.flatten := by
        rw [verdict, ← append_assoc, Lines.process_append, ← verdict, hv, verdict, hdrop,
          Lines.process_again hrest]
        rfl
      have hih := ih { probe with raw := probe.raw ++ chunk, consumed, block } hconsumed
        (by dsimp only; rw [hdrop]; exact hrest) (by dsimp only; rw [length_append]; omega)
      rw [hlater, ← append_assoc]
      exact hih

end Verify

-- Within the limit the probe confirms exactly genuine responses behind quiet lines, whatever the
-- division into chunks, and rejects every other complete response.
theorem probe_confirms_genuine_responses (uuid : Text) (startup : Bytes) (chunks : List Bytes)
    (hlimit : startup.length + chunks.flatten.length ≤ confirmMaxBytes) :
    (∀ after, (∃ rest unread probe, (new uuid startup).verify chunks = (.confirmed rest, unread, probe) ∧
        rest ++ unread.flatten = after) ↔
      ∃ response : Response (commandOf (tokenOf uuid)) chunks.flatten after,
        response.IsGenuine (tokenOf uuid)) ∧
    (∀ after (response : Response (commandOf (tokenOf uuid)) chunks.flatten after),
      ¬ response.IsGenuine (tokenOf uuid) → ((new uuid startup).verify chunks).1 = .rejected) ∧
    ((new uuid startup).verify chunks).2.2.raw ++ ((new uuid startup).verify chunks).2.1.flatten =
      startup ++ chunks.flatten := by
  have hnil : (new uuid startup).raw.drop (new uuid startup).consumed = [] := drop_length
  have hverdict : (new uuid startup).verdict chunks.flatten =
      Lines.process newline (line (tokenOf uuid) (commandOf (tokenOf uuid))) none [] chunks.flatten := by
    rw [verdict, hnil]
    rfl
  obtain ⟨hraw, hwaiting, hended⟩ := verify_spec (new uuid startup) chunks (Nat.le_refl _)
    (by rw [hnil]; exact not_mem_nil) hlimit
  refine ⟨?_, ?_, hraw⟩
  · intro after
    constructor
    · rintro ⟨rest, unread, probe, hverify, rfl⟩
      refine genuine_of_process (hverdict ▸ ?_)
      rw [hverify] at hwaiting hended
      cases hv : (new uuid startup).verdict chunks.flatten
      case waiting block line =>
        have hpending := hwaiting block line hv
        cases hpending
      case ended outcome after =>
        obtain ⟨rest', hprogress, hafter⟩ := hended outcome after hv
        cases outcome <;> cases hprogress
        rw [← hafter]
    · rintro ⟨response, hgenuine⟩
      obtain ⟨rest, hprogress, hafter⟩ :=
        hended .confirmed after (hverdict.trans (process_genuine response hgenuine))
      exact ⟨rest, _, _, Prod.ext hprogress rfl, hafter⟩
  · intro after response hother
    obtain ⟨rest, hrejected⟩ := process_other response hother
    obtain ⟨rest', hprogress, -⟩ := hended .rejected rest (hverdict.trans hrejected)
    exact hprogress

end NyaTerm.Tmux.Probe

namespace NyaTerm.Tmux.Sample

def response : Bytes :=
  toUtf8 "%begin 1 2 1\nnyaterm_0\n%end 1 2 1\n".toList

theorem probe_confirms_genuine_responses_in_two_chunks : ∃ after,
    ∃ answer : Probe.Response (Probe.commandOf (Probe.tokenOf ['0']))
        [response.take 20, response.drop 20].flatten after,
      answer.IsGenuine (Probe.tokenOf ['0']) :=
  ⟨[], ((Probe.probe_confirms_genuine_responses ['0'] [] [response.take 20, response.drop 20]
    (by decide)).1 []).mp ⟨[], [], _, rfl, rfl⟩⟩

-- A line that is no notification keeps a genuine response from being confirmed.
theorem line_before_response_rejects :
    ((Probe.new ['0'] []).verify [response]).1 = .confirmed [] ∧
      ((Probe.new ['0'] []).verify [[120, 10] ++ response]).1 = .rejected :=
  ⟨rfl, rfl⟩

end NyaTerm.Tmux.Sample
