import NyaTerm.Sync.World
import NyaTerm.Sync.Theorems.Resolve
import NyaTerm.Sync.Theorems.Fixed

open List

open Std Causal

namespace NyaTerm

open SyncReplica

variable [Platform]

theorem SyncReplica.load_withActor {a b q} (h : load s a = .ok q) :
    load s b = .ok { q with actor := b } := by
  have ⟨hs, hd, _, hv, hf, hq⟩ := load_eq_ok.mp h
  exact load_eq_ok.mpr ⟨hs, hd, rfl, hv, hf, hq.withActor b⟩

namespace World

-- What holds of all replicas of a world together.
structure Coherent (S : Set SyncValue) (w : World) : Prop where
  valid : ∀ r ∈ w, r.Valid
  stores : ∀ r ∈ w, r.Stores S
  agrees : ∀ r ∈ w, ∀ q ∈ w, r.document.Agrees q.document

-- A replica that holds only operations of the world.
structure Within (S : Set SyncValue) (w : World) (r : SyncReplica) : Prop where
  valid : r.Valid
  stores : r.Stores S
  held : ∀ i p, r.document.op? i = some p → ∃ q ∈ w, q.document.op? i = some p

section Within

theorem Coherent.within (h : Coherent S w) (hr : r ∈ w) : Within S w r :=
  ⟨h.valid r hr, h.stores r hr, fun _ _ hp => ⟨r, hr, hp⟩⟩

theorem Within.new (a : Uuid) : Within S w (new a) where
  valid := valid_new a
  stores := by simp [Stores, SyncReplica.new]
  held := by simp [SyncReplica.new]

theorem Within.withActor (h : Within S w r) (a : Uuid) : Within S w { r with actor := a } :=
  ⟨h.valid.withActor a, h.stores, h.held⟩

theorem Within.agrees (h : Coherent S w) (hr : Within S w r) (hq : Within S w q) :
    r.document.Agrees q.document := by
  intro i p p' hp hp'
  have ⟨x, hx, hp⟩ := hr.held i p hp
  have ⟨y, hy, hp'⟩ := hq.held i p' hp'
  exact h.agrees x hx y hy i p p' hp hp'

theorem Within.compatible (hS : Collisionless S) (hr : Within S w r) (hq : Within S w q) :
    r.Compatible q :=
  compatible_of_stores hS hr.stores hq.stores hr.valid.digests hq.valid.digests

theorem Within.join (hS : Collisionless S) (hr : Within S w r) (hq : Within S w q)
    (h : r.document.Agrees q.document) : Within S w (r.join q h) where
  valid := hr.valid.join hq.valid (hr.compatible hS hq) h
  stores id v hv := by
    rcases (getElem?_join (hr.compatible hS hq)).mp hv with hv | hv
    · exact hr.stores id v hv
    · exact hq.stores id v hv
  held i p hp := by
    rcases op?_join.mp hp with hp | hp
    · exact hr.held i p hp
    · exact hq.held i p hp

theorem Sent.within (h : Coherent S w) {s} (hs : Sent w s) :
    ∃ q, load s .nil = .ok q ∧ Within S w q := by
  cases hs
  case snapshot q hq => exact ⟨_, load_snapshot (h.valid q hq) .nil, (h.within hq).withActor .nil⟩
  case fixed q hq hs =>
    have hp := fixedSnapshot_published hs
    refine ⟨_, (load_published hp.schema hp.document).mpr ⟨rfl, hp.valid⟩, hp.valid, ?_, ?_⟩
    · intro d v hv
      have ⟨_, _, _, hr, _⟩ := (hp.values d v).mp hv
      exact h.stores q hq d v hr.held
    · exact fun i p hi => ⟨q, hq, hi⟩

theorem Within.merge (hS : Collisionless S) (hw : Coherent S w) (hr : Within S w r) {s}
    (hq : Within S w q) (hs : load s .nil = .ok q) :
    r.merge s = (.ok (), r.join q (hr.agrees hw hq)) :=
  merge_eq_join hr.valid hs (hr.compatible hS hq) _

theorem Coherent.cons (h : Coherent S w) (hr : Within S w r) : Coherent S (r :: w) where
  valid := by simpa using ⟨hr.valid, h.valid⟩
  stores := by simpa using ⟨hr.stores, h.stores⟩
  agrees x hx y hy := by
    have hw {z} (hz : z ∈ r :: w) : Within S w z := by
      rcases mem_cons.mp hz with rfl | hz
      · exact hr
      · exact h.within hz
    exact (hw hx).agrees h (hw hy)

theorem Coherent.write (h : Coherent S w) (hr : r ∈ w) (ha : Leads w r) {identities ws}
    (hv : (r.performAll identities ws).Valid) (hs : (r.performAll identities ws).Stores S) :
    Coherent S (r.performAll identities ws :: w) where
  valid := by simpa using ⟨hv, h.valid⟩
  stores := by simpa using ⟨hs, h.stores⟩
  agrees x hx y hy := by
    have hn {q} (hq : q ∈ w) : (r.performAll identities ws).document.Agrees q.document :=
      agrees_performAll (h.agrees r hr q hq) (ha q hq)
    rcases mem_cons.mp hx with rfl | hx <;> rcases mem_cons.mp hy with rfl | hy
    · exact .refl _
    · exact hn hy
    · exact (hn hx).symm
    · exact h.agrees x hx y hy

end Within

theorem Coherent.step (hS : Collisionless S) (hb : ∀ b, SyncValue.bool b ∈ S) {w r}
    (h : Coherent S w) (hs : Step S w r) : Coherent S (r :: w) := by
  cases hs
  case new a => exact h.cons (.new a)
  case load s a hs hl =>
    have ⟨q, hq, hw⟩ := hs.within h
    cases (load_withActor hq).symm.trans hl
    exact h.cons (hw.withActor a)
  case capture r hr ha baseline current hc scope identities =>
    have ⟨ws, he, hw, hsound⟩ := capture_writes r baseline current scope identities
    have hi := Captures.writesIn hb hc hw
    rw [he]
    exact h.write hr ha ((h.valid r hr).performAll hS (h.stores r hr) hi hsound)
      ((h.stores r hr).performAll hi)
  case resolve r hr ha c x scope u =>
    cases hres : r.resolve c x scope u
    case mk res r' =>
      cases res
      case error e =>
        rw [resolve_eq_error hres]
        exact h.cons (h.within hr)
      case ok =>
        have hv := (h.valid r hr).resolve hres
        obtain ⟨_, _, _, v, hx, rfl⟩ := resolve_eq_ok.mp hres
        have hs : (r.perform ⟨c.field, v⟩ u).Stores S := by
          intro id w hw
          exact h.stores r hr id w (values_perform (h.valid r hr).digests hx u ▸ hw)
        show Coherent S (r.performAll (fun _ => u) [⟨c.field, v⟩] :: w)
        exact h.write hr ha hv hs
  case merge r s hr hs =>
    have ⟨q, hq, hw⟩ := hs.within h
    rw [(h.within hr).merge hS h hw hq]
    exact h.cons ((h.within hr).join hS hw _)

theorem Reachable.coherent (hS : Collisionless S) (hb : ∀ b, SyncValue.bool b ∈ S) {w}
    (h : Reachable S w) : Coherent S w := by
  induction h
  case empty => exact ⟨by simp, by simp, by simp⟩
  case step hs hi => exact hi.step hS hb hs

end World

-- The union of a replica with all that the snapshots of a list hold.
structure SyncReplica.Union (r : SyncReplica) (ss : List ReplicaSnapshot) (q : SyncReplica) :
    Prop where
  actor : q.actor = r.actor
  ops : ∀ i p, q.document.op? i = some p ↔ r.document.op? i = some p ∨
    ∃ s ∈ ss, ∃ x, load s .nil = .ok x ∧ x.document.op? i = some p
  values : ∀ (id : String) v, q.values[id]? = some v ↔ r.values[id]? = some v ∨
    ∃ s ∈ ss, ∃ x, load s .nil = .ok x ∧ x.values[id]? = some v
  fixed : q.fixed ↔ r.fixed ∨ ∃ s ∈ ss, ∃ x, load s .nil = .ok x ∧ x.fixed

namespace SyncReplica.Union

variable {r : SyncReplica}

theorem unique (h : r.Union ss q) {q'} (h' : r.Union ts q') (he : ∀ s, s ∈ ss ↔ s ∈ ts) :
    q = q' := by
  have hd : q.document = q'.document := by
    refine Document.ext_op? fun i => Option.ext fun p => ?_
    rw [h.ops, h'.ops]
    simp only [he]
  have hv : q.values = q'.values := by
    refine ExtTreeMap.ext_getElem? fun id => Option.ext fun v => ?_
    rw [h.values, h'.values]
    simp only [he]
  have hf : q.fixed = q'.fixed := by
    rw [Bool.eq_iff_iff, h.fixed, h'.fixed]
    simp only [he]
  exact SyncReplica.ext hd (h.actor.trans h'.actor.symm) hv hf

theorem nil : r.Union [] r := by
  constructor <;> simp

theorem trans (h : r.Union ss q) {q'} (h' : q.Union ts q') : r.Union (ss ++ ts) q' where
  actor := h'.actor.trans h.actor
  ops i p := by
    rw [h'.ops, h.ops]
    grind
  values id v := by
    rw [h'.values, h.values]
    grind
  fixed := by
    rw [h'.fixed, h.fixed]
    grind

theorem single {s} (hx : load s .nil = .ok x) : (new .nil).Union [s] x where
  actor := (load_eq_ok.mp hx).2.2.1
  ops i p := by simp [hx, new]
  values id v := by simp [hx, new]
  fixed := by simp [hx, new]

theorem join (hx : (new .nil).Union ts x) (hc : r.Compatible x)
    (h : r.document.Agrees x.document) : r.Union ts (r.join x h) where
  actor := rfl
  ops i p := by
    rw [op?_join, hx.ops]
    simp [new]
  values id v := by
    rw [getElem?_join hc, hx.values]
    simp [new]
  fixed := by
    have : (r.join x h).fixed = (r.fixed || x.fixed) := rfl
    rw [this, Bool.or_eq_true, hx.fixed]
    simp [new]

end SyncReplica.Union

section Delivery

open World

variable (hS : Collisionless S) (hw : Coherent S w)
include hS hw

theorem Bundle.pack_union (b : Bundle) (hb : ∀ s ∈ b.snapshots, Sent w s) :
    ∃ s x, b.pack = .ok s ∧ load s .nil = .ok x ∧ Within S w x ∧
      (SyncReplica.new .nil).Union b.snapshots x := by
  induction b
  case single s =>
    have ⟨x, hx, hi⟩ := (hb s (by simp [snapshots])).within hw
    exact ⟨s, x, rfl, hx, hi, .single hx⟩
  case group a b c hib hic =>
    have ⟨s, x, hs, hx, hi, hu⟩ := hib fun s h => hb s (by simp [snapshots, h])
    have ⟨t, y, ht, hy, hj, hv⟩ := hic fun s h => hb s (by simp [snapshots, h])
    have hia := hi.withActor a
    have hm := hia.merge hS hw hj hy
    have hin := hia.join hS hj (hia.agrees hw hj)
    refine ⟨_, _, ?_, load_snapshot hin.valid .nil, hin.withActor .nil, ?_⟩
    · simp only [pack, hs, ht, load_withActor hx, bind, Except.bind, hm]
      rfl
    · -- The snapshot of the group does not keep the actor that made it.
      have he : x.join y (hi.agrees hw hj) =
          { ({ x with actor := a } : SyncReplica).join y (hia.agrees hw hj) with actor := .nil } :=
        SyncReplica.ext rfl hu.actor rfl rfl
      exact he ▸ hu.trans (hv.join (hi.compatible hS hj) (hi.agrees hw hj))

theorem SyncReplica.deliver_union (hr : Within S w r) (bs : List Bundle)
    (hb : ∀ s ∈ bs.flatMap Bundle.snapshots, Sent w s) :
    ∃ q, r.deliver bs = .ok q ∧ Within S w q ∧ r.Union (bs.flatMap Bundle.snapshots) q := by
  simp only [deliver, Fallible.bind_eq_ok]
  induction bs generalizing r
  case nil => exact ⟨r, ⟨[], rfl, rfl⟩, hr, .nil⟩
  case cons b bs hi =>
    have ⟨s, x, hs, hx, hxi, hu⟩ := b.pack_union hS hw fun s h => hb s (by simp [h])
    have hm := hr.merge hS hw hxi hx
    have hj := hr.join hS hxi (hr.agrees hw hxi)
    have ⟨q, ⟨ss, hss, hq⟩, hqi, hqu⟩ := hi hj fun s h => hb s (by
      rw [flatMap_cons, mem_append]
      exact .inr h)
    refine ⟨q, ⟨s :: ss, ?_, ?_⟩, hqi, (hu.join (hr.compatible hS hxi) _).trans hqu⟩
    · simp [hs, hss, bind, Except.bind, pure, Except.pure]
    · simp only [mergeAll, foldlM_cons, hm]
      exact hq

end Delivery

-- Merging is a join: replicas that got the same snapshots, in whatever order, as often and in
-- whatever groups, are the same. They hold what was delivered, and nothing else is new.
theorem SyncReplica.deliver_converges {S : Set SyncValue} (hS : Collisionless S)
    (hb : ∀ b, SyncValue.bool b ∈ S) {w : World} (hw : w.Reachable S) {r : SyncReplica}
    (hr : r ∈ w) {bs bs' : List Bundle} (hs : ∀ s ∈ bs.flatMap Bundle.snapshots, w.Sent s)
    (he : ∀ s, s ∈ bs.flatMap Bundle.snapshots ↔ s ∈ bs'.flatMap Bundle.snapshots) :
    ∃ q q', r.deliver bs = .ok q ∧ r.deliver bs' = .ok q' ∧
      r.Union (bs.flatMap Bundle.snapshots) q ∧ (∀ f, q.candidates f = q'.candidates f) ∧
      q.conflicts = q'.conflicts ∧ q.values = q'.values ∧
      ∀ l scope, q.materialize l scope = q'.materialize l scope := by
  have hc := hw.coherent hS hb
  have ⟨q, hq, _, hu⟩ := deliver_union hS hc (hc.within hr) bs hs
  have ⟨q', hq', _, hu'⟩ := deliver_union hS hc (hc.within hr) bs' fun s h => hs s ((he s).mpr h)
  cases hu.unique hu' he
  exact ⟨q, q, hq, hq', hu, fun _ => rfl, rfl, rfl, fun _ _ => rfl⟩

theorem World.reachable_pair {S : Set SyncValue} (baseline baseline' : SyncValues)
    {current current' : SyncProjection}
    (hc : ∀ (k : String) v, current.values[k]? = some v → v ∈ S)
    (hc' : ∀ (k : String) v, current'.values[k]? = some v → v ∈ S) (scope identities) :
    Reachable S [((SyncReplica.new 2).capture baseline' current' scope identities).2,
      SyncReplica.new 2, ((SyncReplica.new 1).capture baseline current scope identities).2,
      SyncReplica.new 1] := by
  have h₁ : Reachable S [SyncReplica.new 1] := .step .empty (.new 1)
  have hl₁ : Leads [SyncReplica.new 1] (SyncReplica.new 1) := by
    simp [Leads, SyncReplica.new]
  have h₂ := (h₁.step (.capture (by simp) hl₁ baseline hc scope identities)).step (.new 2)
  refine h₂.step (.capture (by simp) ?_ baseline' hc' scope identities)
  intro q hq i p hp ha
  simp only [mem_cons, not_mem_nil, or_false] at hq
  rcases hq with rfl | rfl | rfl
  · exact hp
  · rw [op?_capture_new 1 scope identities hp] at ha
    exact absurd ha (by decide)
  · simp [SyncReplica.new] at hp

omit [Platform] in
-- Two devices that dispute a connection, delivered to one of them as it was at first.
theorem SyncReplica.deliver_converges_pair : ∃ (_ : Platform) (S : Set SyncValue) (w : World)
    (r q q' : SyncReplica) (bs bs' : List Bundle), Collisionless S ∧ (∀ b, SyncValue.bool b ∈ S) ∧
      w.Reachable S ∧ r ∈ w ∧ bs.length = 2 ∧ bs'.length = 1 ∧
      r.deliver bs = .ok q ∧ r.deliver bs' = .ok q' ∧ r.Union (bs.flatMap Bundle.snapshots) q ∧
      q.conflicts = q'.conflicts ∧ q.values = q'.values := by
  let current : SyncProjection :=
    { values := (∅ : SyncValues).insert (SyncFieldId.presence ⟨"connection", "c1"⟩).key (.bool true) }
  have hc (k : String) (v) (h : current.values[k]? = some v) : v ∈ booleans := by
    simp only [current, ExtTreeMap.getElem?_insert, ExtTreeMap.getElem?_empty] at h
    split at h
    · exact ⟨true, (Option.some.inj h).symm⟩
    · contradiction
  generalize Platform.sample = platform
  have hb : ∀ b, SyncValue.bool b ∈ booleans := fun b => ⟨b, rfl⟩
  let r := ((new 1).capture ∅ current {} fun _ => 0).2
  let r' := ((new 2).capture ∅ current {} fun _ => 0).2
  have hw : World.Reachable booleans [r', new 2, r, new 1] := World.reachable_pair ∅ ∅ hc hc {} _
  have hs (t) (ht : t ∈ [Bundle.single r.snapshot, .single r'.snapshot].flatMap Bundle.snapshots) :
      World.Sent [r', new 2, r, new 1] t := by
    simp only [flatMap_cons, Bundle.snapshots, flatMap_nil, append_nil,
      cons_append, nil_append, mem_cons, not_mem_nil, or_false] at ht
    rcases ht with rfl | rfl
    · exact .snapshot (by simp)
    · exact .snapshot (by simp)
  have he (t) : t ∈ [Bundle.single r.snapshot, .single r'.snapshot].flatMap Bundle.snapshots ↔
      t ∈ [Bundle.group 3 (.single r'.snapshot) (.single r.snapshot)].flatMap Bundle.snapshots := by
    simp [Bundle.snapshots, or_comm]
  have hm : new 1 ∈ [r', new 2, r, new 1] := by simp
  have ⟨q, q', hq, hq', hu, _, h, hv, _⟩ := deliver_converges collisionless_booleans hb hw hm hs he
  exact ⟨platform, _, _, _, q, q', _, _, collisionless_booleans, hb, hw, hm, rfl, rfl, hq, hq', hu,
    h, hv⟩

end NyaTerm
