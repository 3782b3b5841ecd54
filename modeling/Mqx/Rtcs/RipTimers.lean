import Mqx.Rtcs.Rip

/-!
# One event for each route of RIP

A route that RIP has learned keeps one pending event while it is in the table, unless the
router of a dead route says once more that it is dead, or the garbage collection takes another
route that looks the same.
-/

namespace Mqx.Rtcs

open Function (update)

variable {o p : EventOwner} {t time : ℕ} {q : EventQueue}

/-! ## The event queue -/

def eventOwners (q : EventQueue) : List EventOwner := q.map Prod.fst

theorem eventAdd_owners : (eventOwners (eventAdd o t q)).Perm (o :: eventOwners q) := by
  induction q generalizing t with
  | nil => exact List.Perm.refl _
  | cons e q ih =>
    obtain ⟨p, u⟩ := e
    rw [eventAdd]
    by_cases h : t < u
    · rw [if_pos h]
      exact List.Perm.refl _
    · rw [if_neg h]
      exact (ih.cons p).trans (List.Perm.swap o p _)

theorem eventCatchUp_owners : eventOwners (eventCatchUp t q) = eventOwners q := by
  cases q with
  | nil => rfl
  | cons e q => rfl

theorem eventCancel_owners : eventOwners (eventCancel o q) = (eventOwners q).erase o := by
  induction q with
  | nil => rfl
  | cons e q ih =>
    obtain ⟨p, u⟩ := e
    rw [eventCancel]
    by_cases h : p = o
    · subst h
      rw [if_pos rfl, eventCatchUp_owners]
      show eventOwners q = (p :: eventOwners q).erase p
      rw [List.erase_cons_head]
    · rw [if_neg h]
      show p :: eventOwners (eventCancel o q) = (p :: eventOwners q).erase o
      rw [ih, List.erase_cons_tail (by simpa using h)]

theorem mem_eventAdd : p ∈ (eventOwners (eventAdd o t q)) ↔ p = o ∨ p ∈ eventOwners q := by
  rw [eventAdd_owners.mem_iff, List.mem_cons]

theorem nodup_eventAdd (h : (eventOwners q).Nodup) (ho : o ∉ eventOwners q) :
    (eventOwners (eventAdd o t q)).Nodup :=
  eventAdd_owners.nodup_iff.mpr (List.nodup_cons.mpr ⟨ho, h⟩)

namespace RipState

variable {s s' : RipState} {home : ℕ → IpAddress × IpAddress} {g h : ℕ} {ip mask : IpAddress}
  {f : List ℕ → List ℕ} {n : RouteNode}

/-! ## The routing table -/

def InTable (s : RipState) (g : ℕ) : Prop := ∃ n ∈ s.nodes, g ∈ n.indirect

/-- The nodes have different keys, which are networks; a route is at the node `home` says, once;
its `IS_DIRECT` is `NULL`, and what RIP has learned is not static. -/
structure Table (home : ℕ → IpAddress × IpAddress) (s : RipState) : Prop where
  keys : (s.nodes.map fun n => (n.ip, n.mask)).Nodup
  masked : ∀ n ∈ s.nodes, n.ip &&& n.mask = n.ip
  nodup : ∀ n ∈ s.nodes, n.indirect.Nodup
  home : ∀ n ∈ s.nodes, ∀ g ∈ n.indirect, home g = (n.ip, n.mask)
  isDirect : ∀ g, s.InTable g → (s.gates g).isDirect = false
  dynamic : ∀ g, s.InTable g → (s.gates g).learned ≠ none → (s.gates g).flags &&& RTF_STATIC = 0

theorem Table.eq_of_key (i : s.Table home) {n m : RouteNode} (hn : n ∈ s.nodes)
    (hm : m ∈ s.nodes) (hkey : (n.ip, n.mask) = (m.ip, m.mask)) : n = m :=
  List.inj_on_of_nodup_map i.keys hn hm hkey

/-- A route is at one node only. -/
theorem Table.eq_of_mem (i : s.Table home) {n m : RouteNode} (hn : n ∈ s.nodes)
    (hm : m ∈ s.nodes) (hgn : g ∈ n.indirect) (hgm : g ∈ m.indirect) : n = m :=
  i.eq_of_key hn hm ((i.home n hn g hgn).symm.trans (i.home m hm g hgm))

theorem findNode_some (h : s.findNode ip mask = some n) :
    n ∈ s.nodes ∧ n.ip = ip ∧ n.mask = mask := by
  have hkey := List.find?_some h
  simp only [decide_eq_true_eq] at hkey
  exact ⟨List.mem_of_find?_eq_some h, hkey⟩

theorem Table.findNode_eq (i : s.Table home) (hn : n ∈ s.nodes) :
    s.findNode n.ip n.mask = some n := by
  cases h : s.findNode n.ip n.mask with
  | none =>
    have hnot := List.find?_eq_none.mp h n hn
    exact absurd (by simp : decide (n.ip = n.ip ∧ n.mask = n.mask) = true) hnot
  | some m =>
    obtain ⟨hm, hip, hmask⟩ := findNode_some h
    rw [i.eq_of_key hm hn (by rw [hip, hmask])]

/-- What `ROUTE_get` finds is in the table. -/
theorem routeGet_gate (h : s.routeGet ip mask = .gate g) :
    ∃ n ∈ s.nodes, g ∈ n.indirect ∧ n.ip = ip ∧ n.mask = mask := by
  unfold routeGet at h
  cases hfind : s.findNode ip mask with
  | none =>
    rw [hfind] at h
    exact FoundRoute.noConfusion h
  | some n =>
    obtain ⟨hn, hip, hmask⟩ := findNode_some hfind
    simp only [hfind, RouteNode.first] at h
    by_cases hc : n.connected = true
    · rw [if_pos hc] at h
      exact FoundRoute.noConfusion h
    · rw [if_neg hc] at h
      cases hl : n.indirect with
      | nil =>
        rw [hl] at h
        exact FoundRoute.noConfusion h
      | cons a l =>
        rw [hl] at h
        obtain rfl : a = g := FoundRoute.gate.inj h
        exact ⟨n, hn, by simp [hl], hip, hmask⟩

theorem mem_mapIndirect : n ∈ (s.mapIndirect ip mask f).nodes ↔
    ∃ m ∈ s.nodes, n = if m.ip = ip ∧ m.mask = mask then { m with indirect := f m.indirect }
      else m := by
  unfold mapIndirect
  simp only [List.mem_map]
  constructor
  · rintro ⟨m, hm, h⟩
    exact ⟨m, hm, h.symm⟩
  · rintro ⟨m, hm, h⟩
    exact ⟨m, hm, h.symm⟩

theorem inTable_mapIndirect : (s.mapIndirect ip mask f).InTable g ↔
    ∃ m ∈ s.nodes, if m.ip = ip ∧ m.mask = mask then g ∈ f m.indirect else g ∈ m.indirect := by
  constructor
  · rintro ⟨n, hn, hg⟩
    obtain ⟨m, hm, rfl⟩ := mem_mapIndirect.mp hn
    refine ⟨m, hm, ?_⟩
    by_cases hkey : m.ip = ip ∧ m.mask = mask
    · simpa only [if_pos hkey] using hg
    · simpa only [if_neg hkey] using hg
  · rintro ⟨m, hm, hg⟩
    refine ⟨_, mem_mapIndirect.mpr ⟨m, hm, rfl⟩, ?_⟩
    by_cases hkey : m.ip = ip ∧ m.mask = mask
    · simpa only [if_pos hkey] using hg
    · simpa only [if_neg hkey] using hg

/-- A new list for one node. -/
theorem Table.mapIndirect (i : s.Table home)
    (hf : ∀ m ∈ s.nodes, m.ip = ip → m.mask = mask → (f m.indirect).Nodup ∧
      ∀ g ∈ f m.indirect, home g = (ip, mask) ∧ (s.gates g).isDirect = false ∧
        ((s.gates g).learned ≠ none → (s.gates g).flags &&& RTF_STATIC = 0)) :
    (s.mapIndirect ip mask f).Table home := by
  have hroute : ∀ g, (s.mapIndirect ip mask f).InTable g → (s.gates g).isDirect = false ∧
      ((s.gates g).learned ≠ none → (s.gates g).flags &&& RTF_STATIC = 0) := by
    intro g hg
    obtain ⟨m, hm, hg⟩ := inTable_mapIndirect.mp hg
    by_cases hkey : m.ip = ip ∧ m.mask = mask
    · rw [if_pos hkey] at hg
      exact ((hf m hm hkey.1 hkey.2).2 g hg).2
    · rw [if_neg hkey] at hg
      exact ⟨i.isDirect g ⟨m, hm, hg⟩, i.dynamic g ⟨m, hm, hg⟩⟩
  exact {
    keys := by
      have hmap : (s.mapIndirect ip mask f).nodes.map (fun n => (n.ip, n.mask)) =
          s.nodes.map fun n => (n.ip, n.mask) := by
        unfold RipState.mapIndirect
        rw [List.map_map]
        refine List.map_congr_left fun n _ => ?_
        simp only [Function.comp_apply]
        split
        · rfl
        · rfl
      rw [hmap]
      exact i.keys
    masked := fun n hn => by
      obtain ⟨m, hm, rfl⟩ := mem_mapIndirect.mp hn
      split
      · exact i.masked m hm
      · exact i.masked m hm
    nodup := fun n hn => by
      obtain ⟨m, hm, rfl⟩ := mem_mapIndirect.mp hn
      split
      next hkey => exact (hf m hm hkey.1 hkey.2).1
      next => exact i.nodup m hm
    home := fun n hn g hg => by
      obtain ⟨m, hm, rfl⟩ := mem_mapIndirect.mp hn
      by_cases hkey : m.ip = ip ∧ m.mask = mask
      · rw [if_pos hkey] at hg ⊢
        rw [((hf m hm hkey.1 hkey.2).2 g hg).1, hkey.1, hkey.2]
      · rw [if_neg hkey] at hg ⊢
        exact i.home m hm g hg
    isDirect := fun g hg => (hroute g hg).1
    dynamic := fun g hg => (hroute g hg).2 }

/-- The same nodes, and the routes in them as they were or still dynamic. -/
theorem Table.congr (i : s.Table home) (hnodes : s'.nodes = s.nodes)
    (hgates : ∀ g, s.InTable g → (s'.gates g).isDirect = (s.gates g).isDirect ∧
      ((s'.gates g).learned ≠ none → (s'.gates g).flags &&& RTF_STATIC = 0)) :
    s'.Table home where
  keys := hnodes ▸ i.keys
  masked := hnodes ▸ i.masked
  nodup := hnodes ▸ i.nodup
  home := hnodes ▸ i.home
  isDirect := fun g ⟨n, hn, hg⟩ =>
    have hin : s.InTable g := ⟨n, hnodes ▸ hn, hg⟩
    (hgates g hin).1.trans (i.isDirect g hin)
  dynamic := fun g ⟨n, hn, hg⟩ => (hgates g ⟨n, hnodes ▸ hn, hg⟩).2

/-! ## What changes one route -/

theorem setGate_self (s : RipState) (g : ℕ) (c : Gate → Gate) :
    (s.setGate g c).gates g = c (s.gates g) := Function.update_self _ _ _

theorem setGate_of_ne (s : RipState) {g h : ℕ} (c : Gate → Gate) (hne : h ≠ g) :
    (s.setGate g c).gates h = s.gates h := Function.update_of_ne hne _ _

/-- The event that a route with this metric has. -/
def timerEvent (metric : ℕ) : RipEvent :=
  if metric < RIP_MAX_METRIC then .expireRte else .expireGc

theorem initTimer_self (s : RipState) (g metric : ℕ) : (s.initTimer g metric).gates g =
    { s.gates g with event := some (timerEvent metric) } := by
  simp only [initTimer]
  exact setGate_self _ _ _

theorem initTimer_of_ne (s : RipState) {g h : ℕ} (metric : ℕ) (hne : h ≠ g) :
    (s.initTimer g metric).gates h = s.gates h := by
  simp only [initTimer]
  exact setGate_of_ne _ _ hne

theorem initTimer_owners (s : RipState) (g metric : ℕ) :
    (eventOwners (s.initTimer g metric).events).Perm (.gate g :: eventOwners s.events) :=
  eventAdd_owners

/-- The flags of a route that is adopted. -/
def adoptedFlags (metric : ℕ) (flags : BitVec 32) : BitVec 32 :=
  if metric < RIP_MAX_METRIC then flags ||| RTF_UP else flags &&& ~~~RTF_UP

/-- `RTF_UP` has nothing to do with `RTF_STATIC`. -/
theorem adoptedFlags_static (metric : ℕ) {flags : BitVec 32} (h : flags &&& RTF_STATIC = 0) :
    adoptedFlags metric flags &&& RTF_STATIC = 0 := by
  have hup : RTF_UP &&& RTF_STATIC = 0 := by decide
  unfold adoptedFlags
  split
  · rw [BitVec.and_comm, BitVec.and_or_distrib_left, BitVec.and_comm, h,
      BitVec.and_comm RTF_STATIC, hup]
    rfl
  · rw [BitVec.and_assoc, BitVec.and_comm (~~~RTF_UP), ← BitVec.and_assoc, h]
    exact BitVec.zero_and

theorem downFlags_static {flags : BitVec 32} (h : flags &&& RTF_STATIC = 0) :
    flags &&& ~~~RTF_UP &&& RTF_STATIC = 0 :=
  adoptedFlags_static RIP_MAX_METRIC h

variable {ips : IpAddresses} {r : RipResponse} {rte : RipRte} {metric : ℕ}

theorem adoptRt_self (s : RipState) (g : ℕ) : (s.adoptRt ips r g rte metric).gates g =
    { s.gates g with
      gateway := entryGateway ips r rte
      flags := adoptedFlags metric (s.gates g).flags
      ripMetric := metric
      learned := some r.source
      event := some (timerEvent metric) } := by
  unfold adoptRt
  rw [initTimer_self, setGate_self]
  rfl

theorem adoptRt_of_ne (s : RipState) {g h : ℕ} (hne : h ≠ g) :
    (s.adoptRt ips r g rte metric).gates h = s.gates h := by
  unfold adoptRt
  rw [initTimer_of_ne _ _ hne, setGate_of_ne _ _ hne]

theorem adoptRt_owners (ips : IpAddresses) (r : RipResponse) (rte : RipRte) (metric : ℕ)
    (s : RipState) (g : ℕ) :
    (eventOwners (s.adoptRt ips r g rte metric).events).Perm (.gate g :: eventOwners s.events) :=
  initTimer_owners _ _ _

theorem adoptRt_nodes (s : RipState) (g : ℕ) :
    (s.adoptRt ips r g rte metric).nodes = s.nodes := rfl

/-- The state with the event of a route cancelled. -/
def cancelled (s : RipState) (g : ℕ) : RipState :=
  { s with events := eventCancel (.gate g) s.events }

/-- What `RIP_update_rt` does: nothing, a new timer, no timer any more, or a new route. -/
theorem updateRt_cases (ips : IpAddresses) (r : RipResponse) (s : RipState) (g : ℕ)
    (rte : RipRte) :
    (s.updateRt ips r g rte = s ∧ ((s.gates g).flags &&& RTF_STATIC ≠ 0 ∨
        r.source ≠ (s.gates g).gateway ∧ (s.gates g).ripMetric ≤ cpuMetric rte.metric)) ∨
      (s.gates g).flags &&& RTF_STATIC = 0 ∧
        ((r.source = (s.gates g).gateway ∧ (s.gates g).ripMetric = cpuMetric rte.metric ∧
            cpuMetric rte.metric < RIP_MAX_METRIC ∧
            s.updateRt ips r g rte = (s.cancelled g).initTimer g (s.gates g).ripMetric) ∨
          (r.source = (s.gates g).gateway ∧ (s.gates g).ripMetric = cpuMetric rte.metric ∧
            RIP_MAX_METRIC ≤ cpuMetric rte.metric ∧ s.updateRt ips r g rte = s.cancelled g) ∨
          ((r.source ≠ (s.gates g).gateway → cpuMetric rte.metric ≤ (s.gates g).ripMetric) ∧
            s.updateRt ips r g rte =
              { (s.cancelled g).adoptRt ips r g rte (cpuMetric rte.metric) with
                rtChanged := true })) := by
  unfold updateRt
  by_cases hstatic : (s.gates g).flags &&& RTF_STATIC = 0
  · rw [if_neg (not_not_intro hstatic)]
    by_cases hworse : r.source ≠ (s.gates g).gateway ∧
        (s.gates g).ripMetric < cpuMetric rte.metric
    · rw [if_pos hworse]
      exact .inl ⟨rfl, .inr ⟨hworse.1, hworse.2.le⟩⟩
    · rw [if_neg hworse]
      by_cases hsame : r.source ≠ (s.gates g).gateway ∧
          cpuMetric rte.metric = (s.gates g).ripMetric ∧ (RIP_MAX_METRIC ≤ cpuMetric rte.metric ∨
            RIP_ALMOST_EXPIRED_TIME < eventExpire (.gate g) 0 s.events)
      · rw [if_pos hsame]
        exact .inl ⟨rfl, .inr ⟨hsame.1, hsame.2.1.ge⟩⟩
      · rw [if_neg hsame]
        refine .inr ⟨hstatic, ?_⟩
        by_cases hown : r.source = (s.gates g).gateway ∧
            (s.gates g).ripMetric = cpuMetric rte.metric
        · rw [if_pos hown]
          by_cases hlive : cpuMetric rte.metric < RIP_MAX_METRIC
          · rw [if_pos hlive]
            exact .inl ⟨hown.1, hown.2, hlive, rfl⟩
          · rw [if_neg hlive]
            exact .inr (.inl ⟨hown.1, hown.2, not_lt.mp hlive, rfl⟩)
        · rw [if_neg hown]
          refine .inr (.inr ⟨fun hne => ?_, rfl⟩)
          by_contra hlt
          exact hworse ⟨hne, not_le.mp hlt⟩
  · rw [if_pos hstatic]
    exact .inl ⟨rfl, .inl hstatic⟩

/-! ## The events of the routes -/

/-- The route has the event that its metric asks for. -/
structure Timed (s : RipState) (g : ℕ) : Prop where
  pending : .gate g ∈ eventOwners s.events
  metric : (s.gates g).ripMetric ≤ RIP_MAX_METRIC
  event : (s.gates g).event = some (timerEvent (s.gates g).ripMetric)

/-- No event is in the queue twice, and that of the triggered update only while its timer is
running. -/
structure Queue (s : RipState) : Prop where
  owners : (eventOwners s.events).Nodup
  running : .trigUpd ∈ eventOwners s.events → s.trigRunning = true

/-- The routes that RIP has learned have their events. -/
structure AllTimed (s : RipState) : Prop where
  queue : s.Queue
  timed : ∀ g, s.InTable g → (s.gates g).learned ≠ none → s.Timed g

theorem cpuMetric_le (n : ℕ) : cpuMetric n ≤ RIP_MAX_METRIC := min_le_right _ _

theorem cancelled_owners (s : RipState) (g : ℕ) :
    eventOwners (s.cancelled g).events = (eventOwners s.events).erase (.gate g) :=
  eventCancel_owners

theorem mem_cancelled (hne : h ≠ g) (hmem : .gate h ∈ eventOwners s.events) :
    .gate h ∈ eventOwners (s.cancelled g).events := by
  rw [cancelled_owners]
  exact (List.mem_erase_of_ne fun hc => hne (EventOwner.gate.inj hc)).mpr hmem

/-- A step that changes one route, and takes no event from another. -/
theorem AllTimed.change (a : s.AllTimed) (hnodes : s'.nodes = s.nodes)
    (hothers : ∀ h, h ≠ g → s'.gates h = s.gates h)
    (hqueue : s'.Queue)
    (hkeep : ∀ h, h ≠ g → .gate h ∈ eventOwners s.events → .gate h ∈ eventOwners s'.events)
    (hg : s.InTable g → (s'.gates g).learned ≠ none → s'.Timed g) : s'.AllTimed where
  queue := hqueue
  timed := fun h hin hlearned => by
    have hin' : s.InTable h := by
      obtain ⟨n, hn, hh⟩ := hin
      exact ⟨n, hnodes ▸ hn, hh⟩
    by_cases hh : h = g
    · subst hh
      exact hg hin' hlearned
    · rw [hothers h hh] at hlearned
      obtain ⟨hp, hm, he⟩ := a.timed h hin' hlearned
      refine ⟨hkeep h hh hp, ?_, ?_⟩
      · rw [hothers h hh]
        exact hm
      · rw [hothers h hh]
        exact he

theorem Queue.cancelled (k : s.Queue) (g : ℕ) : (s.cancelled g).Queue where
  owners := by
    rw [cancelled_owners]
    exact k.owners.erase _
  running := fun hmem => by
    rw [cancelled_owners] at hmem
    exact k.running (List.mem_of_mem_erase hmem)

/-- An event that is not in the queue is added. -/
theorem Queue.add (k : s.Queue) (hg : .gate g ∉ eventOwners s.events)
    (hperm : (eventOwners s'.events).Perm (.gate g :: eventOwners s.events))
    (hrunning : s'.trigRunning = s.trigRunning) : s'.Queue where
  owners := hperm.nodup_iff.mpr (List.nodup_cons.mpr ⟨hg, k.owners⟩)
  running := fun hmem => by
    rw [hrunning]
    rw [hperm.mem_iff, List.mem_cons] at hmem
    exact k.running (hmem.resolve_left EventOwner.noConfusion)

/-- A timer that is cancelled and started again. -/
structure Restarted (g : ℕ) (s s' : RipState) : Prop where
  queue : s.Queue → s'.Queue
  keep : ∀ h, .gate h ∈ eventOwners s.events → .gate h ∈ eventOwners s'.events
  pending : .gate g ∈ eventOwners s'.events

theorem restarted_of_perm (hrunning : s'.trigRunning = s.trigRunning)
    (hperm : (eventOwners s'.events).Perm (.gate g :: eventOwners (s.cancelled g).events)) :
    Restarted g s s' where
  queue := fun k => (k.cancelled g).add
    (by rw [cancelled_owners]; exact k.owners.not_mem_erase) hperm hrunning
  keep := fun h hmem => by
    rw [hperm.mem_iff]
    by_cases hne : h = g
    · exact hne ▸ List.mem_cons_self
    · exact List.mem_cons_of_mem _ (mem_cancelled hne hmem)
  pending := hperm.mem_iff.mpr List.mem_cons_self

theorem restarted_initTimer (s : RipState) (g metric : ℕ) :
    Restarted g s ((s.cancelled g).initTimer g metric) :=
  restarted_of_perm rfl (initTimer_owners _ _ _)

theorem restarted_adoptRt (ips : IpAddresses) (r : RipResponse) (rte : RipRte) (metric : ℕ)
    (s : RipState) (g : ℕ) : Restarted g s ((s.cancelled g).adoptRt ips r g rte metric) :=
  restarted_of_perm rfl (adoptRt_owners ips r rte metric _ _)

theorem updateRt_nodes : (s.updateRt ips r g rte).nodes = s.nodes := by
  rcases updateRt_cases ips r s g rte with ⟨h, -⟩ | ⟨-, ⟨-, -, -, h⟩ | ⟨-, -, -, h⟩ | ⟨-, h⟩⟩ <;>
    rw [h] <;> rfl

theorem updateRt_of_ne (hne : h ≠ g) : (s.updateRt ips r g rte).gates h = s.gates h := by
  rcases updateRt_cases ips r s g rte with ⟨hu, -⟩ | ⟨-, ⟨-, -, -, hu⟩ | ⟨-, -, -, hu⟩ | ⟨-, hu⟩⟩
  · rw [hu]
  · rw [hu, initTimer_of_ne _ _ hne]
    rfl
  · rw [hu]
    rfl
  · rw [hu]
    show ((s.cancelled g).adoptRt ips r g rte (cpuMetric rte.metric)).gates h = _
    rw [adoptRt_of_ne _ hne]
    rfl

/-- The router of a dead route says once more that the route is dead. -/
def DeadAgain (s : RipState) (r : RipResponse) (g : ℕ) (rte : RipRte) : Prop :=
  (s.gates g).learned ≠ none ∧ r.source = (s.gates g).gateway ∧
    (s.gates g).ripMetric = RIP_MAX_METRIC ∧ cpuMetric rte.metric = RIP_MAX_METRIC

theorem Table.updateRt (i : s.Table home) : (s.updateRt ips r g rte).Table home := by
  refine i.congr updateRt_nodes fun h hin => ?_
  have hold := i.dynamic h hin
  by_cases hne : h = g
  · subst hne
    rcases updateRt_cases ips r s h rte with
      ⟨hu, -⟩ | ⟨hstatic, ⟨-, -, -, hu⟩ | ⟨-, -, -, hu⟩ | ⟨-, hu⟩⟩
    · rw [hu]
      exact ⟨rfl, hold⟩
    · rw [hu, initTimer_self]
      exact ⟨rfl, hold⟩
    · rw [hu]
      exact ⟨rfl, hold⟩
    · rw [hu]
      show (((s.cancelled h).adoptRt ips r h rte (cpuMetric rte.metric)).gates h).isDirect = _ ∧
        (_ → (((s.cancelled h).adoptRt ips r h rte (cpuMetric rte.metric)).gates h).flags &&&
          RTF_STATIC = 0)
      rw [adoptRt_self]
      exact ⟨rfl, fun _ => adoptedFlags_static _ hstatic⟩
  · rw [updateRt_of_ne hne]
    exact ⟨rfl, hold⟩

theorem AllTimed.updateRt (a : s.AllTimed) (hdead : s.InTable g → ¬ s.DeadAgain r g rte) :
    (s.updateRt ips r g rte).AllTimed := by
  rcases updateRt_cases ips r s g rte with
    ⟨hu, -⟩ | ⟨-, ⟨hown, hsame, hlive, hu⟩ | ⟨hown, hsame, hlive, hu⟩ | ⟨-, hu⟩⟩
  · rw [hu]
    exact a
  · have hr := restarted_initTimer s g (s.gates g).ripMetric
    rw [hu]
    refine a.change rfl (fun h hne => (initTimer_of_ne _ _ hne).trans rfl) (hr.queue a.queue)
      (fun h _ => hr.keep h) fun hin hlearned => ⟨hr.pending, ?_, ?_⟩
    · rw [initTimer_self]
      show (s.gates g).ripMetric ≤ _
      rw [hsame]
      exact cpuMetric_le _
    · rw [initTimer_self]
      rfl
  · rw [hu]
    refine a.change rfl (fun h _ => rfl) (a.queue.cancelled g)
      (fun h hne hmem => mem_cancelled hne hmem) fun hin hlearned => ?_
    · have hmax : cpuMetric rte.metric = RIP_MAX_METRIC := le_antisymm (cpuMetric_le _) hlive
      exact absurd ⟨hlearned, hown, hsame.trans hmax, hmax⟩ (hdead hin)
  · have hr := restarted_adoptRt ips r rte (cpuMetric rte.metric) s g
    have hqueue := hr.queue a.queue
    rw [hu]
    refine a.change rfl (fun h hne => (adoptRt_of_ne _ hne).trans rfl)
      ⟨hqueue.owners, hqueue.running⟩ (fun h _ => hr.keep h)
      fun hin hlearned => ⟨hr.pending, ?_, ?_⟩
    · show (((s.cancelled g).adoptRt ips r g rte (cpuMetric rte.metric)).gates g).ripMetric ≤ _
      rw [adoptRt_self]
      exact cpuMetric_le _
    · simp only [adoptRt_self]

/-! ## A new route -/

theorem routeInsert_gates {network netmask : IpAddress} {memory : Bool} :
    (s.routeInsert g network netmask memory).gates = s.gates ∧
      (s.routeInsert g network netmask memory).events = s.events ∧
      (s.routeInsert g network netmask memory).trigRunning = s.trigRunning := by
  unfold routeInsert
  split
  · exact ⟨rfl, rfl, rfl⟩
  · split
    · exact ⟨rfl, rfl, rfl⟩
    · exact ⟨rfl, rfl, rfl⟩

theorem inTable_routeInsert {network netmask : IpAddress} {memory : Bool}
    (hin : (s.routeInsert g network netmask memory).InTable h) : h = g ∨ s.InTable h := by
  unfold routeInsert at hin
  split at hin
  · obtain ⟨m, hm, hh⟩ := inTable_mapIndirect.mp hin
    split at hh
    · exact (mem_insertSecond.mp hh).imp id fun hh => ⟨m, hm, hh⟩
    · exact .inr ⟨m, hm, hh⟩
  · split at hin
    · obtain ⟨m, hm, hh⟩ := hin
      rcases List.mem_append.mp hm with hm | hm
      · exact .inr ⟨m, hm, hh⟩
      · obtain rfl := List.mem_singleton.mp hm
        exact .inl (List.mem_singleton.mp hh)
    · exact .inr hin

/-- The place of a route that is not in the table does not matter. -/
theorem Table.rehome (i : s.Table home) (hg : ¬ s.InTable g) (key : IpAddress × IpAddress) :
    s.Table (update home g key) :=
  { i with
    home := fun n hn h hh => by
      have hne : h ≠ g := fun hc => hg ⟨n, hn, hc ▸ hh⟩
      rw [Function.update_of_ne hne]
      exact i.home n hn h hh }

/-- A route that is not in the table is put there. -/
theorem Table.routeInsert {network netmask : IpAddress} (i : s.Table home) (hg : ¬ s.InTable g)
    (hdirect : (s.gates g).isDirect = false)
    (hdynamic : (s.gates g).learned ≠ none → (s.gates g).flags &&& RTF_STATIC = 0)
    (memory : Bool) : (s.routeInsert g network netmask memory).Table
      (update home g (network &&& netmask, netmask)) := by
  have i' := i.rehome hg (network &&& netmask, netmask)
  unfold RipState.routeInsert
  by_cases hsome : (s.findNode (network &&& netmask) netmask).isSome = true
  · rw [if_pos hsome]
    refine i'.mapIndirect fun m hm hip hmask => ⟨?_, fun h hh => ?_⟩
    · exact nodup_insertSecond (fun hc => hg ⟨m, hm, hc⟩) (i.nodup m hm)
    · rcases mem_insertSecond.mp hh with rfl | hh
      · exact ⟨Function.update_self _ _ _, hdirect, hdynamic⟩
      · have hin : s.InTable h := ⟨m, hm, hh⟩
        exact ⟨(i'.home m hm h hh).trans (by rw [hip, hmask]), i.isDirect h hin, i.dynamic h hin⟩
  · rw [if_neg hsome]
    by_cases hmem : memory = true
    · rw [if_pos hmem]
      have hnone : ∀ n ∈ s.nodes, (n.ip, n.mask) ≠ (network &&& netmask, netmask) := by
        intro n hn hc
        obtain ⟨hip, hmask⟩ := Prod.mk.inj hc
        apply hsome
        rw [← hip, ← hmask, i.findNode_eq hn]
        rfl
      exact {
        keys := by
          rw [List.map_append, List.nodup_append]
          refine ⟨i.keys, List.nodup_singleton _, fun k hk k' hk' => ?_⟩
          obtain ⟨n, hn, rfl⟩ := List.mem_map.mp hk
          obtain rfl := List.mem_singleton.mp hk'
          exact hnone n hn
        masked := fun n hn => by
          rcases List.mem_append.mp hn with hn | hn
          · exact i.masked n hn
          · obtain rfl := List.mem_singleton.mp hn
            show network &&& netmask &&& netmask = network &&& netmask
            rw [BitVec.and_assoc, BitVec.and_self]
        nodup := fun n hn => by
          rcases List.mem_append.mp hn with hn | hn
          · exact i.nodup n hn
          · obtain rfl := List.mem_singleton.mp hn
            exact List.nodup_singleton g
        home := fun n hn h hh => by
          rcases List.mem_append.mp hn with hn | hn
          · exact i'.home n hn h hh
          · obtain rfl := List.mem_singleton.mp hn
            obtain rfl := List.mem_singleton.mp hh
            exact Function.update_self _ _ _
        isDirect := fun h ⟨n, hn, hh⟩ => by
          rcases List.mem_append.mp hn with hn | hn
          · exact i.isDirect h ⟨n, hn, hh⟩
          · obtain rfl := List.mem_singleton.mp hn
            obtain rfl := List.mem_singleton.mp hh
            exact hdirect
        dynamic := fun h ⟨n, hn, hh⟩ => by
          rcases List.mem_append.mp hn with hn | hn
          · exact i.dynamic h ⟨n, hn, hh⟩
          · obtain rfl := List.mem_singleton.mp hn
            obtain rfl := List.mem_singleton.mp hh
            exact hdynamic }
    · rw [if_neg hmem]
      exact i'

/-- The block that the partition gives is in use nowhere. -/
def Fresh (s : RipState) (g : ℕ) : Prop := ¬ s.InTable g ∧ .gate g ∉ eventOwners s.events

/-- The new route before it is put into the table. -/
def newRoute (ips : IpAddresses) (r : RipResponse) (s : RipState) (g : ℕ) (rte : RipRte) :
    RipState :=
  (s.setGate g fun _ => ⟨0, false, 0, 0, 0, none, none⟩).adoptRt ips r g rte
    (cpuMetric rte.metric)

theorem createRt_eq {m : RipMemory} (hg : m.gate = some g) :
    s.createRt ips r rte m = { (s.newRoute ips r g rte).routeInsert g rte.netAddr
      (entryMask r.version rte) m.node with rtChanged := true } := by
  unfold createRt
  rw [hg]
  rfl

theorem newRoute_self : (s.newRoute ips r g rte).gates g =
    ⟨entryGateway ips r rte, false, adoptedFlags (cpuMetric rte.metric) 0, 0,
      cpuMetric rte.metric, some (timerEvent (cpuMetric rte.metric)), some r.source⟩ := by
  unfold newRoute
  rw [adoptRt_self, setGate_self]

theorem newRoute_of_ne (hne : h ≠ g) : (s.newRoute ips r g rte).gates h = s.gates h := by
  unfold newRoute
  rw [adoptRt_of_ne _ hne, setGate_of_ne _ _ hne]

theorem newRoute_owners : (eventOwners (s.newRoute ips r g rte).events).Perm
    (.gate g :: eventOwners s.events) :=
  adoptRt_owners ips r rte _ _ _

theorem createRt_of_ne {m : RipMemory} (hg : m.gate = some g) (hne : h ≠ g) :
    (s.createRt ips r rte m).gates h = s.gates h := by
  rw [createRt_eq hg]
  show ((s.newRoute ips r g rte).routeInsert g _ _ _).gates h = _
  rw [routeInsert_gates.1, newRoute_of_ne hne]

theorem Table.createRt {m : RipMemory} (i : s.Table home) (hg : m.gate = some g)
    (hfresh : s.Fresh g) : ∃ home, (s.createRt ips r rte m).Table home := by
  have i₁ : (s.newRoute ips r g rte).Table home := by
    refine i.congr rfl fun h hin => ?_
    have hne : h ≠ g := fun hc => hfresh.1 (hc ▸ hin)
    rw [newRoute_of_ne hne]
    exact ⟨rfl, i.dynamic h hin⟩
  have i₂ : ((s.newRoute ips r g rte).routeInsert g rte.netAddr (entryMask r.version rte)
      m.node).Table _ :=
    i₁.routeInsert hfresh.1 (by rw [newRoute_self]) (fun _ => by
      rw [newRoute_self]
      exact adoptedFlags_static _ BitVec.zero_and) m.node
  rw [createRt_eq hg]
  exact ⟨_, i₂.congr rfl fun h hin => ⟨rfl, i₂.dynamic h hin⟩⟩

theorem AllTimed.createRt {m : RipMemory} (a : s.AllTimed) (hg : m.gate = some g)
    (hfresh : s.Fresh g) : (s.createRt ips r rte m).AllTimed := by
  have hevents : (s.createRt ips r rte m).events = (s.newRoute ips r g rte).events := by
    rw [createRt_eq hg]
    exact routeInsert_gates.2.1
  have hgates : (s.createRt ips r rte m).gates = (s.newRoute ips r g rte).gates := by
    rw [createRt_eq hg]
    exact routeInsert_gates.1
  constructor
  · refine a.queue.add hfresh.2 ?_ ?_
    · rw [hevents]
      exact newRoute_owners
    · rw [createRt_eq hg]
      exact routeInsert_gates.2.2
  · intro h hin hlearned
    have hin' : h = g ∨ s.InTable h := by
      rw [createRt_eq hg] at hin
      exact inTable_routeInsert (s := s.newRoute ips r g rte) hin
    by_cases hne : h = g
    · subst hne
      refine ⟨?_, ?_, ?_⟩
      · rw [hevents, newRoute_owners.mem_iff]
        exact List.mem_cons_self
      · rw [hgates, newRoute_self]
        exact cpuMetric_le _
      · rw [hgates, newRoute_self]
    · rw [hgates, newRoute_of_ne hne] at hlearned
      obtain ⟨hp, hm, he⟩ := a.timed h (hin'.resolve_left hne) hlearned
      refine ⟨?_, ?_, ?_⟩
      · rw [hevents, newRoute_owners.mem_iff]
        exact List.mem_cons_of_mem _ hp
      · rw [hgates, newRoute_of_ne hne]
        exact hm
      · rw [hgates, newRoute_of_ne hne]
        exact he

/-! ## Removing a route -/

theorem removeRt_eq (s : RipState) (g : ℕ) : s.removeRt g = (s.cancelled g).setGate g fun r =>
    { r with ripMetric := 0, event := none } := rfl

/-- What removing leaves alone: the table, the other routes and their events. -/
structure Removed (l : List ℕ) (s s' : RipState) : Prop where
  nodes : s'.nodes = s.nodes
  others : ∀ h, h ∉ l → s'.gates h = s.gates h
  fields : ∀ h, (s'.gates h).isDirect = (s.gates h).isDirect ∧
    (s'.gates h).learned = (s.gates h).learned ∧ (s'.gates h).flags = (s.gates h).flags ∧
    (s'.gates h).gateway = (s.gates h).gateway ∧ (s'.gates h).metric = (s.gates h).metric
  queue : s.Queue → s'.Queue
  pending : ∀ h, h ∉ l → .gate h ∈ eventOwners s.events → .gate h ∈ eventOwners s'.events

theorem removed_removeRt (s : RipState) (g : ℕ) : Removed [g] s (s.removeRt g) where
  nodes := rfl
  others := fun h hh => setGate_of_ne _ _ fun hc => hh (hc ▸ List.mem_singleton_self h)
  fields := fun h => by
    by_cases hne : h = g
    · subst hne
      rw [removeRt_eq, setGate_self]
      exact ⟨rfl, rfl, rfl, rfl, rfl⟩
    · rw [removeRt_eq, setGate_of_ne _ _ hne]
      exact ⟨rfl, rfl, rfl, rfl, rfl⟩
  queue := fun k => ⟨(k.cancelled g).owners, (k.cancelled g).running⟩
  pending := fun h hh hmem =>
    mem_cancelled (fun hc => hh (hc ▸ List.mem_singleton_self h)) hmem

theorem Removed.trans {l₁ l₂ : List ℕ} {s₁ s₂ s₃ : RipState} (h₁ : Removed l₁ s₁ s₂)
    (h₂ : Removed l₂ s₂ s₃) : Removed (l₁ ++ l₂) s₁ s₃ where
  nodes := h₂.nodes.trans h₁.nodes
  others := fun h hh => by
    rw [List.mem_append, not_or] at hh
    rw [h₂.others h hh.2, h₁.others h hh.1]
  fields := fun h => by
    obtain ⟨a₁, b₁, c₁, d₁, e₁⟩ := h₁.fields h
    obtain ⟨a₂, b₂, c₂, d₂, e₂⟩ := h₂.fields h
    exact ⟨a₂.trans a₁, b₂.trans b₁, c₂.trans c₁, d₂.trans d₁, e₂.trans e₁⟩
  queue := fun k => h₂.queue (h₁.queue k)
  pending := fun h hh hmem => by
    rw [List.mem_append, not_or] at hh
    exact h₂.pending h hh.2 (h₁.pending h hh.1 hmem)

theorem removed_foldl (l : List ℕ) : Removed l s (l.foldl removeRt s) := by
  induction l generalizing s with
  | nil =>
    exact ⟨rfl, fun _ _ => rfl, fun _ => ⟨rfl, rfl, rfl, rfl, rfl⟩, id, fun _ _ hmem => hmem⟩
  | cons g l ih => exact (removed_removeRt s g).trans ih

/-- The garbage collection of the route takes the route itself: its gateway is 0, or it is the
first one found that looks the same. -/
def RemovesItself (s : RipState) (g : ℕ) : Prop :=
  (s.gates g).gateway = 0 ∨ ∀ n ∈ s.nodes, g ∈ n.indirect →
    (deleteRoute (s.deleteTest (s.gates g).gateway (s.gates g).flags (s.gates g).metric)
      n.indirect).1 = some g

theorem deleteTest_removeRt {gateway : IpAddress} {flags : BitVec 32} :
    (s.removeRt g).deleteTest gateway flags metric = s.deleteTest gateway flags metric := by
  funext h
  obtain ⟨-, -, hflags, hgateway, hmetric⟩ := (removed_removeRt s g).fields h
  unfold deleteTest
  rw [hflags, hgateway, hmetric]

/-- What `ROUTE_remove` does: some routes of one node go, others stay. -/
theorem routeRemove_cases (i : s.Table home) (hin : s.InTable g) :
    ∃ n ∈ s.nodes, g ∈ n.indirect ∧ ∃ l rest : List ℕ, rest.Sublist n.indirect ∧
      (∀ h ∈ l, h ∈ n.indirect) ∧ (∀ h ∈ rest, h ∉ l) ∧ (s.RemovesItself g → g ∈ l) ∧
      s.routeRemove g =
        (l.foldl removeRt (s.removeRt g)).mapIndirect n.ip n.mask fun _ => rest := by
  have hfind : ∃ n, ((s.removeRt g).nodes.find? fun n => n.indirect.contains g) = some n := by
    obtain ⟨n, hn, hg⟩ := hin
    exact Option.isSome_iff_exists.mp (List.find?_isSome.mpr ⟨n, hn, by simpa using hg⟩)
  obtain ⟨n, hfind⟩ := hfind
  have hn : n ∈ s.nodes := List.mem_of_find?_eq_some hfind
  have hg : g ∈ n.indirect := by simpa using List.find?_some hfind
  obtain ⟨-, -, hflags, hgateway, hmetric⟩ := (removed_removeRt s g).fields g
  have hnode : (s.removeRt g).findNode n.ip n.mask = some n := i.findNode_eq hn
  refine ⟨n, hn, hg, ?_⟩
  unfold RipState.routeRemove
  simp only [hfind, routeRemoveIndirect, hnode, hflags, hgateway, hmetric, deleteTest_removeRt,
    i.masked n hn]
  by_cases hzero : (s.gates g).gateway = 0
  · -- gateway 0 stands for all routes of the node
    have hall : ∀ h, h ∈ n.indirect.tail ++ n.indirect.take 1 ↔ h ∈ n.indirect := by
      intro h
      cases n.indirect with
      | nil => simp
      | cons a l => simp [or_comm]
    refine ⟨n.indirect.tail ++ n.indirect.take 1, [], List.nil_sublist _, fun h => (hall h).mp,
      by simp, fun _ => (hall g).mpr hg, ?_⟩
    rw [if_pos hzero]
  · rw [if_neg hzero]
    set test := s.deleteTest (s.gates g).gateway (s.gates g).flags (s.gates g).metric with htest
    have hself : test g = true := by simp [htest, deleteTest]
    obtain ⟨h, hh, -, hdelete⟩ := deleteRoute_isSome hg hself
    have hsub := deleteRoute_sublist test n.indirect
    have hnot := deleteRoute_notMem (i.nodup n hn) hdelete
    refine ⟨[h], (deleteRoute test n.indirect).2, hsub, ?_, ?_, ?_, ?_⟩
    · intro k hk
      rw [List.mem_singleton.mp hk]
      exact hh
    · intro k hk hc
      rw [List.mem_singleton.mp hc] at hk
      exact hnot hk
    · rintro (hc | hc)
      · exact absurd hc hzero
      · have hgh : h = g := Option.some.inj (hdelete.symm.trans (hc n hn hg))
        rw [hgh]
        exact List.mem_singleton_self g
    · rw [show deleteRoute test n.indirect = (some h, (deleteRoute test n.indirect).2) from
        Prod.ext hdelete rfl]
      rfl

theorem Removed.table {l : List ℕ} (i : s.Table home) (hr : Removed l s s') : s'.Table home := by
  refine i.congr hr.nodes fun h hin => ?_
  obtain ⟨hdirect, hlearned, hflags, -, -⟩ := hr.fields h
  rw [hlearned, hflags]
  exact ⟨hdirect, i.dynamic h hin⟩

theorem Table.routeRemove (i : s.Table home) (hin : s.InTable g) :
    (s.routeRemove g).Table home := by
  obtain ⟨n, hn, -, l, rest, hsub, -, -, -, heq⟩ := routeRemove_cases i hin
  have hr := (removed_removeRt s g).trans (removed_foldl (s := s.removeRt g) l)
  have i' := hr.table i
  rw [heq]
  refine i'.mapIndirect fun m hm hip hmask => ⟨(i.nodup n hn).sublist hsub, fun h hh => ?_⟩
  have hin' : (l.foldl removeRt (s.removeRt g)).InTable h :=
    ⟨n, by rw [hr.nodes]; exact hn, hsub.mem hh⟩
  exact ⟨i.home n hn h (hsub.mem hh), i'.isDirect h hin', i'.dynamic h hin'⟩

/-- The routes that stay keep their events. -/
theorem routeRemove_timed (i : s.Table home) (hin : s.InTable g)
    (hqueue : s.Queue)
    (hothers : ∀ h, h ≠ g → s.InTable h → (s.gates h).learned ≠ none → s.Timed h)
    (hitself : (s.gates g).learned ≠ none → s.RemovesItself g) : (s.routeRemove g).AllTimed := by
  obtain ⟨n, hn, hg, l, rest, hsub, hl, hrest, hgl, heq⟩ := routeRemove_cases i hin
  have hr := (removed_removeRt s g).trans (removed_foldl (s := s.removeRt g) l)
  rw [heq]
  refine ⟨⟨(hr.queue hqueue).owners, (hr.queue hqueue).running⟩, fun h hh hlearned => ?_⟩
  have hlearned' : (s.gates h).learned ≠ none := by
    rw [← (hr.fields h).2.1]
    exact hlearned
  -- the route is not one of those that go
  have hstays : s.InTable h ∧ h ∉ l ∧ h ≠ g := by
    obtain ⟨m, hm, hmem⟩ := inTable_mapIndirect.mp hh
    have hm' : m ∈ s.nodes := hr.nodes ▸ hm
    by_cases hkey : m.ip = n.ip ∧ m.mask = n.mask
    · rw [if_pos hkey] at hmem
      refine ⟨⟨n, hn, hsub.mem hmem⟩, hrest h hmem, ?_⟩
      rintro rfl
      exact hrest h hmem (hgl (hitself hlearned'))
    · rw [if_neg hkey] at hmem
      have hne : m ≠ n := fun hc => hkey (by rw [hc]; exact ⟨rfl, rfl⟩)
      refine ⟨⟨m, hm', hmem⟩, fun hc => hne (i.eq_of_mem hm' hn hmem (hl h hc)), ?_⟩
      rintro rfl
      exact hne (i.eq_of_mem hm' hn hmem hg)
  obtain ⟨hin', hnotl, hne⟩ := hstays
  have hnot : h ∉ [g] ++ l := by simp [hne, hnotl]
  obtain ⟨hp, hm, he⟩ := hothers h hne hin' hlearned'
  have hgates := hr.others h hnot
  refine ⟨hr.pending h hnot hp, ?_, ?_⟩
  · show ((l.foldl removeRt (s.removeRt g)).gates h).ripMetric ≤ _
    rw [hgates]
    exact hm
  · show ((l.foldl removeRt (s.removeRt g)).gates h).event =
      some (timerEvent ((l.foldl removeRt (s.removeRt g)).gates h).ripMetric)
    rw [hgates]
    exact he

end RipState

end Mqx.Rtcs
