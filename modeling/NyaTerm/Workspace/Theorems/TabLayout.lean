import Mathlib.Data.List.Nodup
import NyaTerm.Workspace.TabLayout

open List

namespace NyaTerm.Workspace

variable {ordered used : List String}

theorem foldl_unique [DecidableEq α] {seen items : List α} (h : (seen ++ items).Nodup) :
    items.foldl (fun seen item => if item ∈ seen then seen else seen ++ [item]) seen = seen ++ items := by
  induction items generalizing seen
  case nil => rw [append_nil, foldl_nil]
  case cons item items ih =>
    have hnew : item ∉ seen := fun hmem => (disjoint_of_nodup_append h) hmem (.head _)
    rw [foldl_cons, if_neg hnew]
    rw [append_cons] at h
    exact (ih h).trans (append_cons _ _ _).symm

theorem unique_of_nodup [DecidableEq α] {items : List α} (h : items.Nodup) : unique items = items :=
  foldl_unique h

theorem getElem?_of_indexById {id : String} (h : indexById ordered id = some index) :
    ordered[index]? = some id := by
  obtain ⟨⟨tab, position⟩, hfind, rfl⟩ := Option.map_eq_some_iff.mp h
  obtain rfl : tab = id := by simpa using find?_some hfind
  exact mem_zipIdx_iff_getElem?.mp (mem_reverse.mp (mem_of_find?_eq_some hfind))

theorem exists_indexById {id : String} (h : id ∈ ordered) : ∃ index, indexById ordered id = some index := by
  obtain ⟨index, hindex⟩ := mem_iff_getElem?.mp h
  have hsome : (ordered.zipIdx.reverse.find? (·.1 = id)).isSome :=
    find?_isSome.mpr ⟨(id, index), mem_reverse.mpr (mem_zipIdx_iff_getElem?.mpr hindex), decide_eq_true rfl⟩
  obtain ⟨found, hfound⟩ := Option.isSome_iff_exists.mp hsome
  exact ⟨found.2, by rw [indexById, hfound]; rfl⟩

theorem WorkspaceSplitDirection.parse_name (direction : WorkspaceSplitDirection) :
    parse direction.name = some direction := by
  cases direction <;> rfl

namespace TerminalWindowNode

variable {node : TerminalWindowNode}

-- The shape, the directions, the tabs and the active tabs.
def withoutRatios : TerminalWindowNode → TerminalWindowNode
  | leaf tabIds activeTabId => .leaf tabIds activeTabId
  | split direction _ first second => .split direction 0 first.withoutRatios second.withoutRatios

-- Every leaf has tabs, and one of them is active.
def Filled : TerminalWindowNode → Prop
  | leaf tabIds activeTabId => ∃ active ∈ tabIds, activeTabId = some active
  | split _ _ first second => first.Filled ∧ second.Filled

-- The tabs are distinct, and no leaf is empty unless it is the only one.
def WellFormed (node : TerminalWindowNode) : Prop :=
  node.collectTabIds.Nodup ∧ (node = .leaf [] none ∨ node.Filled)

theorem takeTabs_filterMap (hnodup : (used ++ tabs).Nodup) (hmem : ∀ id ∈ tabs, id ∈ ordered) :
    takeTabs ordered (tabs.filterMap (indexById ordered)) used = tabs := by
  induction tabs generalizing used
  case nil => rfl
  case cons id tabs ih =>
    obtain ⟨index, hindex⟩ := exists_indexById (hmem id (.head _))
    have hnew : id ∉ used := fun h => (disjoint_of_nodup_append hnodup) h (.head _)
    rw [filterMap_cons_some hindex, takeTabs, getElem?_of_indexById hindex]
    dsimp only
    rw [append_cons] at hnodup
    rw [if_neg hnew, ih hnodup fun id h => hmem id (.tail _ h)]

theorem restoreLayoutInner_serialize (hfilled : node.Filled) (hnodup : (used ++ node.collectTabIds).Nodup)
    (hmem : ∀ id ∈ node.collectTabIds, id ∈ ordered) :
    ∃ layout restored, node.serializeLayoutWith ordered = some layout ∧
      restoreLayoutInner ordered layout used = (some restored, used ++ node.collectTabIds) ∧
      restored.withoutRatios = node.withoutRatios := by
  induction node generalizing used
  case leaf tabs activeTabId =>
    obtain ⟨active, hactive, rfl⟩ := hfilled
    have hne : tabs ≠ [] := ne_nil_of_mem hactive
    have htabs : tabs.Nodup := hnodup.of_append_right
    have hindexes : (tabs.filterMap (indexById ordered)).Nodup := by
      refine htabs.filterMap fun a b i ha hb => ?_
      have hsame := (getElem?_of_indexById ha).symm.trans (getElem?_of_indexById hb)
      exact Option.some.inj hsame
    have htaken : takeTabs ordered (tabs.filterMap (indexById ordered)) used = tabs :=
      takeTabs_filterMap hnodup hmem
    have hsome : tabs.filterMap (indexById ordered) ≠ [] := by
      intro h
      rw [h] at htaken
      exact hne htaken.symm
    obtain ⟨index, hindex⟩ := exists_indexById (hmem active hactive)
    refine ⟨.leaf (tabs.filterMap (indexById ordered)) (some index), .leaf tabs (some active), ?_, ?_, rfl⟩
    · simp [serializeLayoutWith, unique_of_nodup hindexes, hsome, hindex]
    · simp [restoreLayoutInner, htaken, hne, newLeaf, unique_of_nodup htabs, collectTabIds,
        getElem?_of_indexById hindex, hactive]
  case split direction ratioPercent first second ihfirst ihsecond =>
    rw [collectTabIds, ← append_assoc] at hnodup
    rw [collectTabIds] at hmem
    obtain ⟨layout, restored, hlayout, hrestored, hsame⟩ := ihfirst hfilled.1 hnodup.of_append_left
      fun id h => hmem id (mem_append_left _ h)
    obtain ⟨layout', restored', hlayout', hrestored', hsame'⟩ := ihsecond hfilled.2 hnodup
      fun id h => hmem id (mem_append_right _ h)
    refine ⟨.split direction.name (some (storedRatio ratioPercent)) layout layout',
      .split direction (restoredPercent (storedRatio ratioPercent)) restored restored', ?_, ?_, ?_⟩
    · rw [serializeLayoutWith, hlayout, hlayout']
      rfl
    · rw [restoreLayoutInner, WorkspaceSplitDirection.parse_name]
      change (Option.merge _ (restoreLayoutInner ordered layout used).1 _, _) = _
      rw [hrestored, hrestored', collectTabIds, append_assoc]
      rfl
    · rw [withoutRatios, withoutRatios, hsame, hsame']

theorem takeTabs_spec (indexes : List Nat) (h : used.Nodup) :
    (used ++ takeTabs ordered indexes used).Nodup ∧ ∀ id ∈ takeTabs ordered indexes used, id ∈ ordered := by
  induction indexes generalizing used
  case nil => exact ⟨by rwa [takeTabs, append_nil], nofun⟩
  case cons index indexes ih =>
    rw [takeTabs]
    split
    case h_1 => exact ih h
    case h_2 id hid =>
      split
      case isTrue => exact ih h
      case isFalse hnew =>
        obtain ⟨hnodup, hmem⟩ := ih ((@nodup_append_comm _ [id] used).mp (nodup_cons.mpr ⟨hnew, h⟩))
        refine ⟨by rwa [append_cons], fun id' hid' => ?_⟩
        rcases mem_cons.mp hid' with rfl | hid'
        · exact mem_of_getElem? hid
        · exact hmem id' hid'

theorem collectTabIds_merge (direction : WorkspaceSplitDirection) (ratioPercent : Nat)
    (first second : Option TerminalWindowNode) :
    (Option.merge (split direction ratioPercent) first second).elim [] collectTabIds =
      first.elim [] collectTabIds ++ second.elim [] collectTabIds := by
  cases first <;> cases second <;> simp [Option.merge, collectTabIds]

-- The tabs that are used anew are those of the restored tree.
theorem restoreLayoutInner_spec (layout : RestorableTerminalWindowNode) (h : used.Nodup) :
    ∃ tabs, (restoreLayoutInner ordered layout used).2 = used ++ tabs ∧ (used ++ tabs).Nodup ∧
      (∀ id ∈ tabs, id ∈ ordered) ∧
      (restoreLayoutInner ordered layout used).1.elim [] collectTabIds = tabs := by
  induction layout generalizing used
  case leaf indexes activeTabIndex =>
    obtain ⟨hnodup, hmem⟩ := @takeTabs_spec ordered used indexes h
    rw [restoreLayoutInner]
    split
    case isTrue => exact ⟨[], (append_nil _).symm, by rwa [append_nil], nofun, rfl⟩
    case isFalse => exact ⟨_, rfl, hnodup, hmem, unique_of_nodup hnodup.of_append_right⟩
  case split direction ratio first second ihfirst ihsecond =>
    have hnone : ∃ tabs, used = used ++ tabs ∧ (used ++ tabs).Nodup ∧ (∀ id ∈ tabs, id ∈ ordered) ∧
        (none : Option TerminalWindowNode).elim [] collectTabIds = tabs :=
      ⟨[], (append_nil _).symm, by rwa [append_nil], nofun, rfl⟩
    rw [restoreLayoutInner]
    cases WorkspaceSplitDirection.parse direction
    case none => exact hnone
    case some direction =>
      cases ratio
      case none => exact hnone
      obtain ⟨tabs, hused, hnodup, hmem, htabs⟩ := ihfirst h
      obtain ⟨tabs', hused', hnodup', hmem', htabs'⟩ := ihsecond hnodup
      refine ⟨tabs ++ tabs', ?_, by rwa [← append_assoc], ?_, ?_⟩
      · change (restoreLayoutInner ordered second (restoreLayoutInner ordered first used).2).2 = _
        rw [hused, hused', append_assoc]
      · exact fun id hid => (mem_append.mp hid).elim (hmem id) (hmem' id)
      · change (Option.merge _ (restoreLayoutInner ordered first used).1
          (restoreLayoutInner ordered second (restoreLayoutInner ordered first used).2).1).elim _ _ = _
        rw [hused, collectTabIds_merge, htabs, htabs']

-- A tree with tabs is restored as it was saved, and whatever layout is restored has every tab once.
theorem saved_layouts_restore_exactly :
    (∀ node : TerminalWindowNode, node.WellFormed → node.collectTabIds ≠ [] →
      ∀ ordered, (∀ id, id ∈ ordered ↔ id ∈ node.collectTabIds) →
      ∃ layout restored, node.serializeLayout ordered = some layout ∧
        restoreLayout layout ordered = some restored ∧
        restored.withoutRatios = node.withoutRatios) ∧
    ∀ layout ordered restored, ordered.Nodup → restoreLayout layout ordered = some restored →
      restored.collectTabIds.Perm ordered := by
  constructor
  · rintro node ⟨hnodup, hfilled⟩ hne ordered hmem
    have hordered : ordered ≠ [] := by
      intro h
      obtain ⟨id, hid⟩ := exists_mem_of_ne_nil _ hne
      have := (hmem id).mpr hid
      rw [h] at this
      cases this
    have hfilled : node.Filled := hfilled.resolve_left fun h => hne (h ▸ rfl)
    obtain ⟨layout, restored, hlayout, hrestored, hsame⟩ :=
      @restoreLayoutInner_serialize ordered [] node hfilled hnodup fun id h => (hmem id).mpr h
    refine ⟨layout, restored, by rw [serializeLayout, if_neg hordered, hlayout], ?_, hsame⟩
    rw [restoreLayout, if_neg hordered, hrestored]
    exact if_pos (all_eq_true.mpr fun id h => decide_eq_true ((hmem id).mp h))
  · intro layout ordered restored hnodup h
    obtain ⟨tabs, hused, htabs, hmem, hcollect⟩ := @restoreLayoutInner_spec ordered [] layout nodup_nil
    rw [restoreLayout] at h
    split at h
    case isTrue => cases h
    dsimp only at h
    split at h
    case isFalse => cases h
    case isTrue hall =>
      rw [h] at hcollect
      rw [hused, all_eq_true] at hall
      rw [show restored.collectTabIds = tabs from hcollect]
      exact (perm_ext_iff_of_nodup htabs hnodup).mpr fun id =>
        ⟨hmem id, fun hid => of_decide_eq_true (hall id hid)⟩

-- Two groups side by side.
def pair : TerminalWindowNode :=
  .split .vertical 50 (.leaf ["a"] (some "a")) (.leaf ["b", "c"] (some "c"))

theorem saved_layouts_restore_exactly_pair : pair.WellFormed ∧ ∃ layout restored,
    pair.serializeLayout ["c", "a", "b"] = some layout ∧
    restoreLayout layout ["c", "a", "b"] = some restored ∧
    restored.withoutRatios = pair.withoutRatios ∧ restored.collectTabIds.Perm ["c", "a", "b"] := by
  have hw : pair.WellFormed := by simp [WellFormed, pair, Filled, collectTabIds]
  obtain ⟨layout, restored, hlayout, hrestored, hsame⟩ := saved_layouts_restore_exactly.1 pair hw
    (by simp [pair, collectTabIds]) ["c", "a", "b"]
    (by simp [pair, collectTabIds, or_comm, or_left_comm])
  exact ⟨hw, layout, restored, hlayout, hrestored, hsame,
    saved_layouts_restore_exactly.2 layout _ restored (by decide) hrestored⟩

-- A window without tabs is well formed, and nothing is saved of it.
theorem empty_window_is_not_saved :
    (leaf [] none).WellFormed ∧ ∀ ordered, (leaf [] none).serializeLayout ordered = none := by
  refine ⟨⟨nodup_nil, .inl rfl⟩, fun ordered => ?_⟩
  rw [serializeLayout]
  split <;> rfl

end TerminalWindowNode

end NyaTerm.Workspace
