import NyaTerm.Sync.Json

open Std

namespace NyaTerm

-- `BTreeMap` and `BTreeSet`. Both are extensional: two maps with the same entries are equal.
abbrev BTreeMap (α β : Type _) [Ord α] := ExtTreeMap α β compare
abbrev BTreeSet (α : Type _) [Ord α] := ExtTreeSet α compare

structure SyncResourceId where
  kind : String
  id : String
  deriving DecidableEq

namespace SyncResourceId

instance : Ord SyncResourceId where
  compare := compareLex (compareOn kind) (compareOn id)

instance : TransOrd SyncResourceId :=
  inferInstanceAs <| TransCmp (compareLex (compareOn kind) (compareOn id))

theorem compare_eq (r s : SyncResourceId) :
    compare r s = (compare r.kind s.kind).then (compare r.id s.id) := rfl

instance : LawfulEqOrd SyncResourceId where
  compare_self := by simp
  eq_of_compare {r s} h := by
    cases r; cases s
    simpa [compare_eq, Ordering.then_eq_eq] using h

end SyncResourceId

structure SyncFieldId where
  resource : SyncResourceId
  field : String
  deriving DecidableEq

variable {f : SyncFieldId}

namespace SyncFieldId

instance : Ord SyncFieldId where
  compare := compareLex (compareOn resource) (compareOn field)

instance : TransOrd SyncFieldId :=
  inferInstanceAs <| TransCmp (compareLex (compareOn resource) (compareOn field))

theorem compare_eq (f g : SyncFieldId) :
    compare f g = (compare f.resource g.resource).then (compare f.field g.field) := rfl

instance : LawfulEqOrd SyncFieldId where
  compare_self := by simp
  eq_of_compare {f g} h := by
    cases f; cases g
    simpa [compare_eq, Ordering.then_eq_eq] using h

def present : String := "$present"

def presence (resource : SyncResourceId) : SyncFieldId :=
  ⟨resource, present⟩

@[simp]
theorem presence_resource (r : SyncResourceId) : (presence r).resource = r := rfl

@[simp]
theorem presence_field (r : SyncResourceId) : (presence r).field = present := rfl

theorem eq_presence (h : f.field = present) : f = presence f.resource := by
  cases f
  simp_all [presence]

-- The literals between the three components of an identity in its JSON text.
def keyHead : List Char := "\x7b\"resource\":\x7b\"kind\":".toList
def keyId : List Char := ",\"id\":".toList
def keyField : List Char := "\x7d,\"field\":".toList
def keyEnd : List Char := "\x7d".toList

-- Identity components are JSON strings, so separators inside them cannot collide.
def keyText (f : SyncFieldId) : List Char :=
  keyHead ++ (Text.quote f.resource.kind.toList ++ (keyId ++ (Text.quote f.resource.id.toList ++
    (keyField ++ (Text.quote f.field.toList ++ keyEnd)))))

def key (f : SyncFieldId) : String :=
  String.ofList f.keyText

def quoted (cs : List Char) : Option (List Char × List Char) := do
  let cs ← Text.stripLiteral ['"'] cs
  Text.unquote (cs.length + 1) cs

-- `serde_json::from_str` on the texts `key` produces. On any other text `fromKey` fails, whatever
-- is read from it, since the identity that is read must have that text as its key.
def parse (cs : List Char) : Option SyncFieldId := do
  let cs ← Text.stripLiteral keyHead cs
  let (kind, cs) ← quoted cs
  let cs ← Text.stripLiteral keyId cs
  let (id, cs) ← quoted cs
  let cs ← Text.stripLiteral keyField cs
  let (field, cs) ← quoted cs
  let cs ← Text.stripLiteral keyEnd cs
  if cs.isEmpty then
    some ⟨⟨String.ofList kind, String.ofList id⟩, String.ofList field⟩
  else
    none

structure Valid (f : SyncFieldId) : Prop where
  kind : f.resource.kind ≠ ""
  id : f.resource.id ≠ ""
  field : f.field ≠ ""

instance (f : SyncFieldId) : Decidable f.Valid :=
  decidable_of_iff (f.resource.kind ≠ "" ∧ f.resource.id ≠ "" ∧ f.field ≠ "")
    ⟨fun ⟨h₁, h₂, h₃⟩ => ⟨h₁, h₂, h₃⟩, fun ⟨h₁, h₂, h₃⟩ => ⟨h₁, h₂, h₃⟩⟩

def fromKey (k : String) : Option SyncFieldId := do
  let field ← parse k.toList
  if field.Valid ∧ field.key = k then some field else none

theorem quoted_quote (s cs : List Char) : quoted (Text.quote s ++ cs) = some (s, cs) := by
  have hl (s : List Char) : s.length ≤ (s.flatMap Text.escapeChar).length := by
    induction s
    case nil => simp
    case cons c s hi =>
      have ⟨d, ds, hd, _⟩ := Text.escapeChar_head c
      simp only [List.flatMap_cons, List.length_append, List.length_cons, hd]
      omega
  have hs : Text.stripLiteral ['"'] ('"' :: (s.flatMap Text.escapeChar ++ '"' :: cs)) =
      some (s.flatMap Text.escapeChar ++ '"' :: cs) := Text.stripLiteral_append ['"'] _
  simp only [quoted, Text.quote, List.cons_append, List.append_assoc, List.nil_append, hs,
    Option.bind_eq_bind, Option.bind_some]
  apply Text.unquote_quote
  have := hl s
  simp only [List.length_append, List.length_cons]
  omega

theorem parse_keyText (f : SyncFieldId) : parse f.keyText = some f := by
  have he : Text.stripLiteral keyEnd keyEnd = some [] := by
    simpa using Text.stripLiteral_append keyEnd []
  simp [parse, keyText, quoted_quote, he]

theorem fromKey_eq_some : fromKey k = some f ↔ f.Valid ∧ f.key = k := by
  refine ⟨fun h => ?_, fun ⟨hv, hk⟩ => ?_⟩
  · simp only [fromKey, Option.bind_eq_bind, Option.bind_eq_some_iff] at h
    have ⟨g, _, hg⟩ := h
    split at hg
    case isTrue hc =>
      cases hg
      exact hc
    case isFalse => contradiction
  · have hp : parse k.toList = some f := by simp [← hk, key, parse_keyText]
    simp [fromKey, hp, hv, hk]

theorem fromKey_key (h : f.Valid) : fromKey f.key = some f :=
  fromKey_eq_some.mpr ⟨h, rfl⟩

theorem key_injective (h : f.key = g.key) : f = g := by
  have ht := String.ofList_injective h
  have := parse_keyText f
  rw [ht, parse_keyText] at this
  simpa using this.symm

theorem fromKey_key_eq_none (h : ¬f.Valid) : fromKey f.key = none := by
  cases hk : fromKey f.key
  case none => rfl
  case some g =>
    have ⟨hv, hg⟩ := fromKey_eq_some.mp hk
    exact absurd (key_injective hg ▸ hv) h

theorem present_ne_empty : present ≠ "" := by decide

theorem Valid.presence (h : f.Valid) : (presence f.resource).Valid :=
  ⟨h.kind, h.id, present_ne_empty⟩

end SyncFieldId

-- A value in its canonical form. It is built by `new` or read back from canonical bytes, so
-- decoding it does not fail. Values nested deeper than the JSON reader allows are left out.
structure SyncValue where
  value : Json
  deriving DecidableEq

namespace SyncValue

def new (value : Json) : SyncValue :=
  ⟨value.sortAllObjects⟩

def decode (v : SyncValue) : Json :=
  v.value

def bytes (v : SyncValue) : List UInt8 :=
  v.value.toText.toUTF8.data.toList

def bool (b : Bool) : SyncValue :=
  new (.bool b)

@[simp]
theorem decode_bool (b : Bool) : (bool b).decode = .bool b := rfl

theorem eq_bool (h : v.decode = .bool b) : v = bool b := by
  cases v
  cases h
  rfl

end SyncValue

abbrev SyncValues := BTreeMap String SyncValue

structure SyncScope where
  secrets : Bool := false
  preferences : Bool := false
  ai : Bool := false
  keybindings : Bool := false
  trustedHosts : Bool := false
  deriving DecidableEq

def coreKinds : List String :=
  ["connection", "connection_group", "connection_icon", "proxy", "proxy_group", "tunnel",
   "tunnel_group", "command", "command_category", "note", "note_folder", "theme"]

def secretKinds : List String :=
  ["key", "password", "credential", "otp", "inline_secret", "ai_secret"]

def aiKinds : List String :=
  ["ai_provider", "ai_profile", "ai_model", "ai_action", "ai_preference"]

def trustKinds : List String :=
  ["known_host", "vnc_known_host"]

def SyncScope.includes (scope : SyncScope) (kind : String) : Bool :=
  coreKinds.contains kind
    || (scope.secrets && secretKinds.contains kind)
    || (scope.preferences && kind == "preference")
    || (scope.ai && aiKinds.contains kind)
    || (scope.keybindings && kind == "keybinding")
    || (scope.trustedHosts && trustKinds.contains kind)

def aiFields : String → List String
  | "ai_provider" => ["name", "transport", "enabled", "icon_data_url"]
  | "ai_profile" => ["name", "transport", "model", "enabled"]
  | "ai_model" => ["identity", "enabled"]
  | "ai_action" => ["name", "prompt", "enabled"]
  | "ai_preference" => ["value"]
  | _ => []

-- The allowlist of `project_record` for the kinds it projects by picking members.
def recordFields : String → Option (List String)
  | "connection_group" => some ["name", "parent_id", "sort_order"]
  | "connection_icon" => some ["name", "data_url"]
  | "proxy_group" => some ["name", "sort_order"]
  | "tunnel_group" => some ["name", "sort_order"]
  | "command_category" => some ["name", "parent_id", "sort_order"]
  | "command" => some ["label", "command", "description", "category_id", "sort_order",
                                "color_tag", "icon_tag", "pinned", "execution_mode"]
  | "note" => some ["title", "markdown", "parent_id", "sort_order"]
  | "note_folder" => some ["name", "parent_id", "sort_order"]
  | _ => none

def supportsField (kind field : String) : Bool :=
  if trustKinds.contains kind then
    [SyncFieldId.present, "identity"].contains field
  else if secretKinds.contains kind then
    [SyncFieldId.present, "name", "sort_order", "value"].contains field
  else if aiKinds.contains kind then
    field == SyncFieldId.present || (aiFields kind).contains field
  else if field == SyncFieldId.present then
    coreKinds.contains kind || ["preference", "keybinding"].contains kind
  else if kind == "connection" then
    ["name", "description", "tags", "endpoint", "placement", "terminal", "serial", "icon", "asset",
     "authentication", "network", "post_login", "sftp", "ssh_algorithms", "telnet",
     "auto_login"].contains field
  else if ["preference", "keybinding"].contains kind then
    field == "value"
  else if ["proxy", "tunnel"].contains kind then
    ["name", "group_id", "endpoint"].contains field || (kind == "tunnel" && field == "auto_open")
  else if kind == "theme" then
    ["name", "label", "swatch", "colors"].contains field
  else
    -- What is left of `project_record` on the record whose only member is `field`.
    (recordFields kind).any fun fields =>
      ((Json.object [(field, .bool true)]).pick fields).get field |>.isSome

def fixedCloudSyncField (field : SyncFieldId) : Bool :=
  coreKinds.contains field.resource.kind && supportsField field.resource.kind field.field

theorem supportsField_present_eq (kind : String) : supportsField kind SyncFieldId.present =
    (trustKinds.contains kind || secretKinds.contains kind || aiKinds.contains kind ||
      (coreKinds.contains kind || ["preference", "keybinding"].contains kind)) := by
  unfold supportsField
  cases trustKinds.contains kind <;> cases secretKinds.contains kind <;>
    cases aiKinds.contains kind <;> simp

theorem supportsField_present {scope : SyncScope} (h : scope.includes kind) :
    supportsField kind SyncFieldId.present := by
  simp only [SyncScope.includes, Bool.or_eq_true, Bool.and_eq_true, beq_iff_eq] at h
  simp only [supportsField_present_eq, Bool.or_eq_true]
  obtain ((((h | h) | h) | h) | h) | h := h <;> simp_all

theorem includes_of_core (scope : SyncScope) (h : coreKinds.contains kind) :
    scope.includes kind := by
  simp only [SyncScope.includes, h, Bool.true_or]

theorem fixedCloudSyncField_presence (h : fixedCloudSyncField f) :
    fixedCloudSyncField (.presence f.resource) := by
  simp only [fixedCloudSyncField, Bool.and_eq_true] at h ⊢
  exact ⟨h.1, supportsField_present (includes_of_core {} h.1)⟩

theorem fixedCloudSyncField_of_presence (h : fixedCloudSyncField (.presence f.resource))
    (hf : supportsField f.resource.kind f.field) : fixedCloudSyncField f := by
  simp only [fixedCloudSyncField, Bool.and_eq_true] at h ⊢
  exact ⟨h.1, hf⟩

def connectionFields : String → List String
  | "endpoint" => ["type", "host", "port", "username", "domain"]
  | "placement" => ["group_id", "sort_order"]
  | "terminal" => ["encoding", "backspace_mode", "terminal_type", "ssh_profile",
                         "ai_execution_profile", "dynamic_tab_title"]
  | "sftp" => ["compatibility_mode", "enabled", "cwd_follow_mode", "filename_encoding"]
  | "ssh_algorithms" => ["mode", "kex", "ciphers", "macs", "host_keys"]
  | "telnet" => ["raw_tcp_cli", "enter_mode", "local_echo", "local_line_edit",
                         "force_character_at_a_time", "send_naws", "send_sga"]
  | "auto_login" => ["enabled", "send_wake_enter", "timeout_ms", "username_prompt_regex",
                         "password_prompt_regex", "success_prompt_regex", "failure_prompt_regex",
                         "max_retries"]
  | "serial" => ["baud_rate", "data_bits", "parity", "stop_bits", "flow_control"]
  | "icon" => ["icon", "icon_auto_detect"]
  | "asset" => ["tags", "notes"]
  | "authentication" => ["mode", "key_id", "password_id", "account_id", "password_source",
                         "username_source", "otp_id", "auto_fill_otp"]
  | "network" => ["proxy_id", "proxy_jump_id", "host_key_alias"]
  | "post_login" => ["enabled", "command", "delay_ms"]
  | _ => []

def networkEndpointFields : String → List String
  | "proxy" => ["protocol", "host", "port", "username", "password_id"]
  | "tunnel" => ["tunnel_type", "connection_id", "listen_port", "target_host", "target_port",
                 "bind_localhost"]
  | _ => []

-- The colors every `ThemeColors` and `TerminalColors` document has, all of them strings.
def themeColorNames : List String :=
  ["bg", "bgPanel", "bgTerminal", "bgHover", "bgInput", "bgSectionHeader", "border", "text",
   "textMuted", "textDimmed", "primary", "primaryHover", "onPrimary", "focusRing", "danger",
   "dangerHover", "success", "warning", "link", "shadow", "scrollThumb", "accent"]

def terminalColorNames : List String :=
  ["background", "foreground", "cursor", "selectionBackground", "lineHighlight",
   "findMatchBackground", "findMatchBorder", "black", "red", "green", "yellow", "blue", "magenta",
   "cyan", "white", "brightBlack", "brightRed", "brightGreen", "brightYellow", "brightBlue",
   "brightMagenta", "brightCyan", "brightWhite"]

def colors (source : Json) (names : List String) : Option (List (String × Json)) :=
  names.mapM fun name => do
    let color ← (← source.get name).asString
    return (name, .string color)

-- A `TerminalColors` document read and written again without the members it does not know.
-- An optional color that is null is not written.
def cleanTerminalColors (source : Json) : Option Json := do
  let required ← colors source terminalColorNames
  match source.get "foregroundIntense" with
  | none | some .null => return .object required
  | some (.string color) => return .object (("foregroundIntense", .string color) :: required)
  | some _ => none

def cleanThemeColors (source : Json) : Option Json := do
  let required ← colors source themeColorNames
  let terminal ← cleanTerminalColors (← source.get "terminal")
  return .object (("terminal", terminal) :: required)

def fixedScalarOrList : Json → Bool
  | .object _ => false
  | .array values => values.all fun value => !value.isObject && !value.isArray
  | _ => true

-- A group of members of which only the listed ones may occur.
def fixedGroup (value : Json) (fields : List String) : Bool :=
  value.asObject.any (·.all (fixedScalarOrList ·.2)) && (value.pick fields).same value

def validFixedCloudSyncValue (field : SyncFieldId) (value : Json) : Bool :=
  if !fixedCloudSyncField field then
    false
  else if field.field == SyncFieldId.present then
    value.isBoolean
  else if field.resource.kind == "connection" && !(connectionFields field.field).isEmpty then
    fixedGroup value (connectionFields field.field)
  else if ["proxy", "tunnel"].contains field.resource.kind && field.field == "endpoint" then
    fixedGroup value (networkEndpointFields field.resource.kind)
  else if field.resource.kind == "theme" && field.field == "colors" then
    (cleanThemeColors value).any (·.same value)
  else
    fixedScalarOrList value

def preferenceFields : List String :=
  ["appearance/theme", "appearance/font_family", "appearance/font_size", "appearance/font_weight",
   "appearance/font_weight_bold", "appearance/cursor_style", "appearance/cursor_blink",
   "appearance/terminal_theme", "appearance/minimum_contrast_ratio"]

-- The members of the default `AppSettingsSummary` that are preferences, by the id that names them.
def defaultPreference : String → Option Json
  | "appearance/theme" => some (.string "github-dark")
  | "appearance/font_family" => some (.string "JetBrains Mono")
  | "appearance/font_size" => some (.number (.int 16))
  | "appearance/font_weight" => some (.number (.int 400))
  | "appearance/font_weight_bold" => some (.number (.int 700))
  | "appearance/cursor_style" => some (.string "block")
  | "appearance/cursor_blink" => some (.bool true)
  | "appearance/terminal_theme" => some .null
  | "appearance/minimum_contrast_ratio" => some (.string "1")
  | _ => none

def isDefaultPreference (resource : SyncResourceId) (value : SyncValue) : Bool :=
  if resource.kind != "preference" || !preferenceFields.contains resource.id then
    false
  else
    (defaultPreference resource.id).any (SyncValue.new · = value)

-- Only complete reads may establish absence. `edited` are the edits since the effective baseline,
-- including those that returned to the same value.
structure SyncProjection where
  values : SyncValues := ∅
  complete : BTreeSet String := ∅
  edited : BTreeSet SyncFieldId := ∅

namespace SyncProjection

def insert (p : SyncProjection) (resource : SyncResourceId) (field : String) (value : Json) :
    SyncProjection :=
  { p with values := p.values.insert (SyncFieldId.key ⟨resource, field⟩) (.new value) }

-- A failed call keeps what was inserted before the failure.
def record (p : SyncProjection) (kind id : String) (fields : Json) :
    Except String Unit × SyncProjection :=
  let resource : SyncResourceId := ⟨kind, id⟩
  match fields.asObject with
  | none => (.error "Invalid sync record", p)
  | some members =>
    if id.isEmpty then
      (.error "Invalid sync record", p)
    else if (SyncFieldId.presence resource).key ∈ p.values then
      (.error "Duplicate sync resource identity", p)
    else
      go resource members (p.insert resource SyncFieldId.present (.bool true))
where
  go (resource : SyncResourceId) : List (String × Json) → SyncProjection →
      Except String Unit × SyncProjection
    | [], p => (.ok (), p)
    | (field, value) :: rest, p =>
      if "$".isPrefixOf field then
        (.error "Reserved sync field", p)
      else
        go resource rest (p.insert resource field value)

end SyncProjection
end NyaTerm
