import NyaTerm.Store.Relationships

open Walk Looping

namespace NyaTerm.Store

-- Every reference is to an element of the right kind, and no element reaches itself.
structure WellFormed (catalogue : Catalogue) : Prop where
  groupParents : ∀ group ∈ catalogue.groups, ∀ id, group.parentId = some id →
    ∃ parent ∈ catalogue.groups, parent.id = id
  groupsAcyclic : ∀ id, ¬ Relation.TransGen (Names (·.id) (·.parentId) catalogue.groups) id id
  connectionGroups : ∀ connection ∈ catalogue.connections, ∀ id, connection.groupId = some id →
    ∃ group ∈ catalogue.groups, group.id = id
  connectionProxies : ∀ connection ∈ catalogue.connections, ∀ id, connection.proxyId = some id →
    ∃ proxy ∈ catalogue.proxies, proxy.id = id
  jumpHosts : ∀ connection ∈ catalogue.connections, ∀ id, connection.proxyJumpId = some id →
    ∃ jump ∈ catalogue.connections, jump.id = id ∧ jump.isSsh
  jumpsAcyclic : ∀ id,
    ¬ Relation.TransGen (Names (·.id) (·.proxyJumpId) catalogue.connections) id id
  proxyGroups : ∀ proxy ∈ catalogue.proxies, ∀ id, proxy.groupId = some id →
    id ∈ catalogue.proxyGroups
  tunnelGroups : ∀ tunnel ∈ catalogue.tunnels, ∀ id, tunnel.groupId = some id →
    id ∈ catalogue.tunnelGroups
  tunnelConnections : ∀ tunnel ∈ catalogue.tunnels, ∀ id, tunnel.connectionId = some id →
    ∃ connection ∈ catalogue.connections, connection.id = id ∧ connection.isSsh
  categoryParents : ∀ category ∈ catalogue.categories, ∀ id, category.parentId = some id →
    ∃ parent ∈ catalogue.categories, parent.id = id
  categoriesAcyclic : ∀ id,
    ¬ Relation.TransGen (Names (·.id) (·.parentId) catalogue.categories) id id
  commandCategories : ∀ command ∈ catalogue.commands, ∀ id, command.categoryId = some id →
    ∃ category ∈ catalogue.categories, category.id = id

-- No two elements of a collection that is looked into have the same id.
structure Distinct (catalogue : Catalogue) : Prop where
  groups : (catalogue.groups.map (·.id)).Nodup
  connections : (catalogue.connections.map (·.id)).Nodup
  categories : (catalogue.categories.map (·.id)).Nodup

-- More rounds than there are elements in a collection.
structure Enough (fuel : Nat) (catalogue : Catalogue) : Prop where
  groups : catalogue.groups.length < fuel
  connections : catalogue.connections.length < fuel
  categories : catalogue.categories.length < fuel

section Parts

variable {reference : Option String}

theorem succeeds_require : Succeeds (require reference known) () ↔
    ∀ id, reference = some id → known id := by
  rw [require]
  cases reference
  case none => simp
  case some id => cases h : known id <;> simp [h]

theorem ends_require : Ends (require reference known) := by
  rw [require]
  split <;> rfl

section

variable (hd : Distinct catalogue) (hf : Enough fuel catalogue)
include hd hf

theorem validateGroups_iff :
    (∀ group ∈ catalogue.groups, Succeeds (validateGroup fuel catalogue group) ()) ↔
    (∀ group ∈ catalogue.groups, ∀ id, group.parentId = some id →
      ∃ parent ∈ catalogue.groups, parent.id = id) ∧
    ∀ id, ¬ Relation.TransGen (Names (·.id) (·.parentId) catalogue.groups) id id := by
  simp only [validateGroup]
  rw [forest_iff hd.groups hf.groups]
  simp only [and_true]

theorem validateCategories_iff :
    (∀ category ∈ catalogue.categories, Succeeds (validateCategory fuel catalogue category) ()) ↔
    (∀ category ∈ catalogue.categories, ∀ id, category.parentId = some id →
      ∃ parent ∈ catalogue.categories, parent.id = id) ∧
    ∀ id, ¬ Relation.TransGen (Names (·.id) (·.parentId) catalogue.categories) id id := by
  simp only [validateCategory]
  rw [forest_iff hd.categories hf.categories]
  simp only [and_true]

theorem validateConnections_iff :
    (∀ connection ∈ catalogue.connections,
      Succeeds (validateConnection fuel catalogue connection) ()) ↔
    (∀ connection ∈ catalogue.connections, ∀ id, connection.groupId = some id →
      ∃ group ∈ catalogue.groups, group.id = id) ∧
    (∀ connection ∈ catalogue.connections, ∀ id, connection.proxyId = some id →
      ∃ proxy ∈ catalogue.proxies, proxy.id = id) ∧
    (∀ connection ∈ catalogue.connections, ∀ id, connection.proxyJumpId = some id →
      ∃ jump ∈ catalogue.connections, jump.id = id ∧ jump.isSsh) ∧
    ∀ id, ¬ Relation.TransGen (Names (·.id) (·.proxyJumpId) catalogue.connections) id id := by
  simp only [validateConnection, succeeds_bind_unit, succeeds_require, List.any_eq_true,
    decide_eq_true_eq, forall_and]
  rw [forest_iff hd.connections hf.connections]

end

theorem isSsh_last_iff (hd : Distinct catalogue) {id : String} :
    (last (·.id) catalogue.connections id).any (·.isSsh) ↔
      ∃ connection ∈ catalogue.connections, connection.id = id ∧ connection.isSsh := by
  cases hl : last (·.id) catalogue.connections id
  case none =>
    simp only [Option.any_none, Bool.false_eq_true, false_iff]
    rintro ⟨connection, hm, he, -⟩
    exact last_eq_none.mp hl connection hm he
  case some found =>
    obtain ⟨hm, he⟩ := last_eq_some hl
    rw [Option.any_some]
    constructor
    case mp => exact fun h => ⟨found, hm, he, h⟩
    case mpr =>
      rintro ⟨connection, hc, rfl, h⟩
      rwa [List.inj_on_of_nodup_map hd.connections hm hc he]

theorem validateCatalogue_iff (hd : Distinct catalogue) (hf : Enough fuel catalogue) :
    Succeeds (validateCatalogue fuel catalogue) () ↔ WellFormed catalogue := by
  simp only [validateCatalogue, succeeds_bind_unit, succeeds_forM]
  rw [validateGroups_iff hd hf, validateConnections_iff hd hf, validateCategories_iff hd hf]
  simp only [validateProxy, validateTunnel, validateCommand, succeeds_bind_unit, succeeds_require,
    isSsh_last_iff hd, List.any_eq_true, decide_eq_true_eq, exists_eq_right,
    forall_and]
  constructor
  case mp =>
    rintro ⟨⟨h₁, h₂⟩, ⟨h₃, h₄, h₅, h₆⟩, h₇, ⟨h₈, h₉⟩, ⟨h₁₀, h₁₁⟩, h₁₂⟩
    exact ⟨h₁, h₂, h₃, h₄, h₅, h₆, h₇, h₈, h₉, h₁₀, h₁₁, h₁₂⟩
  case mpr =>
    intro h
    exact ⟨⟨h.1, h.2⟩, ⟨h.3, h.4, h.5, h.6⟩, h.7, ⟨h.8, h.9⟩, ⟨h.10, h.11⟩, h.12⟩

theorem ends_forest [DecidableEq κ] {id : α → κ} {parent : α → Option κ} {admitted : α → Bool}
    {xs : List α} (hf : xs.length < fuel) :
    ∀ x ∈ xs, Ends (chain id (follow id parent admitted invalid xs) invalid fuel [] (some x)) := by
  intro x hx
  exact ends_chain (fun _ _ _ => mem_of_follow) List.nodup_nil (by simp) (by simpa) (some x)
    (by simpa)

theorem ends_validateCatalogue (hf : Enough fuel catalogue) :
    Ends (validateCatalogue fuel catalogue) := by
  refine (ends_forM (ends_forest hf.groups)).bind fun _ => ?_
  refine (ends_forM fun connection hc => ?_).bind fun _ => ?_
  · exact ends_require.bind fun _ => ends_require.bind fun _ =>
      ends_forest hf.connections connection hc
  refine (ends_forM fun _ _ => ends_require).bind fun _ => ?_
  refine (ends_forM fun _ _ => ends_require.bind fun _ => ends_require).bind fun _ => ?_
  exact (ends_forM (ends_forest hf.categories)).bind fun _ => ends_forM fun _ _ => ends_require

end Parts

-- The validation ends on every input, and if no two elements have the same id it accepts exactly what
-- is well formed.
theorem validateRelationships_decides {Entities : Type}
    (read : Entities → Except StorageError Catalogue) (entities : Entities) :
    ∃ rounds, ∀ fuel ≥ rounds,
      Ends (validateRelationships read fuel entities) ∧
      (∀ e, read entities = .error e → ¬ Succeeds (validateRelationships read fuel entities) ()) ∧
      ∀ catalogue, read entities = .ok catalogue → Distinct catalogue →
        (Succeeds (validateRelationships read fuel entities) () ↔ WellFormed catalogue) := by
  cases hr : read entities
  case error e =>
    refine ⟨0, fun fuel _ => ?_⟩
    have hv : validateRelationships read fuel entities = throw e := by
      rw [validateRelationships, hr]
      rfl
    rw [hv]
    exact ⟨ends_throw, fun _ _ => succeeds_throw, nofun⟩
  case ok catalogue =>
    refine ⟨catalogue.groups.length + catalogue.connections.length + catalogue.categories.length + 1,
      fun fuel hf => ?_⟩
    have he : Enough fuel catalogue := ⟨by omega, by omega, by omega⟩
    have hv : validateRelationships read fuel entities = validateCatalogue fuel catalogue := by
      rw [validateRelationships, hr]
      rfl
    rw [hv]
    refine ⟨ends_validateCatalogue he, nofun, fun _ h hd => ?_⟩
    cases h
    exact validateCatalogue_iff hd he

-- Two groups that stand twice each, first with the other one as parent: the walks go on to the second
-- ones.
def doubled : Catalogue where
  connections := []
  groups := [⟨"a", some "b"⟩, ⟨"a", none⟩, ⟨"b", some "a"⟩, ⟨"b", none⟩]
  proxies := []
  proxyGroups := []
  tunnels := []
  tunnelGroups := []
  commands := []
  categories := []

theorem validateRelationships_overlooks_doubled :
    Succeeds (validateRelationships .ok 5 doubled) () ∧ ¬ WellFormed doubled := by
  refine ⟨rfl, fun h => h.groupsAcyclic "a" ?_⟩
  have hab : Names (·.id) (·.parentId) doubled.groups "a" "b" := ⟨⟨"a", some "b"⟩, by decide⟩
  have hba : Names (·.id) (·.parentId) doubled.groups "b" "a" := ⟨⟨"b", some "a"⟩, by decide⟩
  exact .head hab (.single hba)

-- A tunnel through a host behind another one, whose group lies in another one.
def nested : Catalogue where
  connections := [⟨"host", .ssh, some "inner", some ⟨some "proxy", some "jump"⟩⟩,
    ⟨"jump", .ssh, none, none⟩]
  groups := [⟨"inner", some "outer"⟩, ⟨"outer", none⟩]
  proxies := [⟨"proxy", some "proxies"⟩]
  proxyGroups := ["proxies"]
  tunnels := [⟨"tunnel", none, some "host"⟩]
  tunnelGroups := []
  commands := [⟨"ls", some "files"⟩]
  categories := [⟨"files", none⟩]

theorem validateRelationships_decides_nested : Distinct nested ∧ WellFormed nested ∧
    ∃ rounds, ∀ fuel ≥ rounds, Succeeds (validateRelationships .ok fuel nested) () := by
  have hd : Distinct nested := ⟨by decide, by decide, by decide⟩
  have hw : WellFormed nested :=
    (validateCatalogue_iff hd (⟨by decide, by decide, by decide⟩ : Enough 3 nested)).mp rfl
  obtain ⟨rounds, h⟩ := validateRelationships_decides .ok nested
  exact ⟨hd, hw, rounds, fun fuel hf => ((h fuel hf).2.2 nested rfl hd).mpr hw⟩

end NyaTerm.Store
