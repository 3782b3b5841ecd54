import Mqx.Rtcs.RipTimers

/-!
# Runs of RIP

Responses and expiring events in any order, and what holds of the routes that RIP has learned
after each of them.
-/

namespace Mqx.Rtcs

/-- A response, with the advertisement that may follow it, or time that elapses, with the
advertisements of its events. -/
inductive RipOp where
  | response (r : RipResponse) (u : Advertisement)
  | time (us : List Advertisement) (time : ℕ)

namespace RipState

variable {s : RipState} {home : ℕ → IpAddress × IpAddress} {g h t time : ℕ} {q : EventQueue}
  {o : EventOwner} {u : Advertisement} {ips : IpAddresses} {r : RipResponse} {rte : RipRte}
  {m : RipMemory}

/-! ## Events -/

/-- The queue behind its head. -/
theorem Queue.tail (k : s.Queue) (hevents : s.events = (o, t) :: q) :
    ({ s with events := q } : RipState).Queue ∧ o ∉ eventOwners q := by
  have howners := k.owners
  rw [hevents] at howners
  obtain ⟨ho, hq⟩ := List.nodup_cons.mp howners
  refine ⟨⟨hq, fun hmem => k.running ?_⟩, ho⟩
  rw [hevents]
  exact List.mem_cons_of_mem _ hmem

theorem mem_tail (hevents : s.events = (o, t) :: q) (hne : .gate h ≠ o)
    (hmem : .gate h ∈ eventOwners s.events) : .gate h ∈ eventOwners q := by
  rw [hevents] at hmem
  exact (List.mem_cons.mp hmem).resolve_left hne

theorem sendResp_fields (s : RipState) (u : Advertisement) :
    (s.sendResp u).nodes = s.nodes ∧ (s.sendResp u).gates = s.gates ∧
      (s.sendResp u).events = s.events ∧ (s.sendResp u).trigRunning = s.trigRunning := by
  unfold sendResp
  split
  · exact ⟨rfl, rfl, rfl, rfl⟩
  · exact ⟨rfl, rfl, rfl, rfl⟩

theorem trigUpd_fields (s : RipState) (u : Advertisement) :
    (s.trigUpd u).nodes = s.nodes ∧ (s.trigUpd u).gates = s.gates := by
  unfold trigUpd
  split
  · exact ⟨rfl, rfl⟩
  · exact ⟨(sendResp_fields s u).1, (sendResp_fields s u).2.1⟩

/-- A triggered update adds its event when it is not in the queue. -/
theorem Queue.trigUpd (k : s.Queue) (u : Advertisement) : (s.trigUpd u).Queue ∧
    ∀ h, .gate h ∈ eventOwners (s.trigUpd u).events ↔ .gate h ∈ eventOwners s.events := by
  unfold RipState.trigUpd
  by_cases hrunning : s.trigRunning = true
  · rw [if_pos hrunning]
    exact ⟨k, fun _ => Iff.rfl⟩
  · rw [if_neg hrunning]
    have hevents := (sendResp_fields s u).2.2.1
    have hnot : .trigUpd ∉ eventOwners s.events := fun hc => hrunning (k.running hc)
    refine ⟨⟨?_, fun _ => rfl⟩, fun h => ?_⟩
    · simp only [hevents]
      exact nodup_eventAdd k.owners hnot
    · simp only [hevents]
      rw [mem_eventAdd]
      exact or_iff_right EventOwner.noConfusion

/-- What a triggered update leaves alone. -/
theorem AllTimed.trigUpd (a : s.AllTimed) (u : Advertisement) : (s.trigUpd u).AllTimed := by
  obtain ⟨hqueue, hkeep⟩ := a.queue.trigUpd u
  obtain ⟨hnodes, hgates⟩ := trigUpd_fields s u
  refine ⟨hqueue, fun h hin hlearned => ?_⟩
  obtain ⟨n, hn, hh⟩ := hin
  rw [hgates] at hlearned
  obtain ⟨hp, hm, he⟩ := a.timed h ⟨n, hnodes ▸ hn, hh⟩ hlearned
  exact ⟨(hkeep h).mpr hp, by rw [hgates]; exact hm, by rw [hgates]; exact he⟩

theorem Table.trigUpd (i : s.Table home) (u : Advertisement) : (s.trigUpd u).Table home := by
  obtain ⟨hnodes, hgates⟩ := trigUpd_fields s u
  refine i.congr hnodes fun h hin => ?_
  rw [hgates]
  exact ⟨rfl, i.dynamic h hin⟩

theorem routeRemove_of_not (hin : ¬ s.InTable g) : s.routeRemove g = s.removeRt g := by
  have hfind : ((s.removeRt g).nodes.find? fun n => n.indirect.contains g) = none := by
    rw [List.find?_eq_none]
    intro n hn hc
    exact hin ⟨n, hn, by simpa using hc⟩
  unfold routeRemove
  simp only [hfind]

/-- A route that dies: `RIP_expire_rte`, up to its new event. -/
def died (s : RipState) (u : Advertisement) (g : ℕ) : RipState :=
  let s := s.setGate g fun r =>
    { r with flags := r.flags &&& ~~~RTF_UP, ripMetric := RIP_MAX_METRIC }
  ({ s with rtChanged := true }.trigUpd u).setGate g fun r => { r with event := some .expireGc }

theorem died_self (s : RipState) (u : Advertisement) (g : ℕ) : (s.died u g).gates g =
    { s.gates g with
      flags := (s.gates g).flags &&& ~~~RTF_UP
      ripMetric := RIP_MAX_METRIC
      event := some .expireGc } := by
  simp only [died]
  rw [setGate_self, (trigUpd_fields _ u).2]
  simp only [setGate_self]

theorem died_of_ne (s : RipState) (u : Advertisement) (hne : h ≠ g) :
    (s.died u g).gates h = s.gates h := by
  simp only [died]
  rw [setGate_of_ne _ _ hne, (trigUpd_fields _ u).2]
  simp only [setGate_of_ne _ _ hne]

theorem died_nodes (s : RipState) (u : Advertisement) (g : ℕ) :
    (s.died u g).nodes = s.nodes := (trigUpd_fields _ u).1

theorem Queue.died (k : s.Queue) (u : Advertisement) (g : ℕ) : (s.died u g).Queue ∧
    ∀ h, .gate h ∈ eventOwners (s.died u g).events ↔ .gate h ∈ eventOwners s.events := by
  have k' : ({ s.setGate g (fun r => { r with
      flags := r.flags &&& ~~~RTF_UP, ripMetric := RIP_MAX_METRIC }) with
      rtChanged := true } : RipState).Queue := ⟨k.owners, k.running⟩
  obtain ⟨hqueue, hkeep⟩ := k'.trigUpd u
  exact ⟨⟨hqueue.owners, hqueue.running⟩, hkeep⟩

/-- The event that is triggered is that of the garbage collection of a route that RIP has
learned, and takes another one. -/
def WrongCollected (s : RipState) (o : EventOwner) : Prop :=
  ∃ g, o = .gate g ∧ (s.gates g).event = some .expireGc ∧ (s.gates g).learned ≠ none ∧
    s.InTable g ∧ ¬ s.RemovesItself g

theorem trigger_none (hevent : (s.gates g).event = none) (u : Advertisement) (rest : ℕ) :
    s.trigger u rest (.gate g) = s := by
  simp only [trigger, hevent]

theorem trigger_expireRte (hevent : (s.gates g).event = some .expireRte) (u : Advertisement)
    (rest : ℕ) : s.trigger u rest (.gate g) = { s.died u g with
      events := eventAdd (.gate g) ((RIP_TIMEOUT_GC + rest) % 2 ^ 32) (s.died u g).events } := by
  simp only [trigger, hevent]
  rfl

theorem trigger_expireGc (hevent : (s.gates g).event = some .expireGc) (u : Advertisement)
    (rest : ℕ) : s.trigger u rest (.gate g) =
      if (s.gates g).isDirect then s else s.routeRemove g := by
  simp only [trigger, hevent]

/-- The other events change no route. -/
theorem trigger_other (hne : ∀ g, o ≠ .gate g) (u : Advertisement) (rest : ℕ) :
    (s.trigger u rest o).nodes = s.nodes ∧ (s.trigger u rest o).gates = s.gates := by
  obtain ⟨hnodes, hgates, -, -⟩ := sendResp_fields s u
  cases o with
  | gate g => exact absurd rfl (hne g)
  | trigUpd =>
    simp only [trigger]
    split
    · exact ⟨hnodes, hgates⟩
    · exact ⟨rfl, rfl⟩
  | periodic => exact ⟨hnodes, hgates⟩

/-- They put themselves back into the queue, or stop. -/
theorem Queue.trigger_other (k : s.Queue) (hevents : s.events = (o, t) :: q)
    (hne : ∀ g, o ≠ .gate g) (u : Advertisement) (rest : ℕ) :
    (({ s with events := q } : RipState).trigger u rest o).Queue ∧
      ∀ h, .gate h ∈ eventOwners q →
        .gate h ∈ eventOwners (({ s with events := q } : RipState).trigger u rest o).events := by
  obtain ⟨hqueue, ho⟩ := k.tail hevents
  obtain ⟨-, -, hsent, hrunning⟩ := sendResp_fields { s with events := q } u
  cases o with
  | gate g => exact absurd rfl (hne g)
  | trigUpd =>
    have hrun : s.trigRunning = true := k.running (by
      rw [hevents]
      exact List.mem_cons_self)
    simp only [trigger]
    split
    · simp only [hsent]
      refine ⟨⟨nodup_eventAdd hqueue.owners ho, fun _ => ?_⟩,
        fun h hmem => mem_eventAdd.mpr (.inr hmem)⟩
      exact hrunning.trans hrun
    · exact ⟨⟨hqueue.owners, fun hmem => absurd hmem ho⟩, fun h hmem => hmem⟩
  | periodic =>
    simp only [trigger, hsent]
    refine ⟨⟨nodup_eventAdd hqueue.owners ho, fun hmem => ?_⟩,
      fun h hmem => mem_eventAdd.mpr (.inr hmem)⟩
    exact hrunning.trans (hqueue.running
      ((mem_eventAdd.mp hmem).resolve_left EventOwner.noConfusion))

theorem Table.trigger (i : s.Table home) (u : Advertisement) (rest : ℕ) (o : EventOwner) :
    (s.trigger u rest o).Table home := by
  by_cases hgate : ∃ g, o = .gate g
  · obtain ⟨g, rfl⟩ := hgate
    cases hevent : (s.gates g).event with
    | none =>
      rw [trigger_none hevent]
      exact i
    | some e =>
      cases e with
      | expireRte =>
        rw [trigger_expireRte hevent]
        refine i.congr (died_nodes s u g) fun h hin => ?_
        simp only
        by_cases hne : h = g
        · subst hne
          rw [died_self]
          exact ⟨rfl, fun hlearned => downFlags_static (i.dynamic h hin hlearned)⟩
        · rw [died_of_ne s u hne]
          exact ⟨rfl, i.dynamic h hin⟩
      | expireGc =>
        rw [trigger_expireGc hevent]
        split
        · exact i
        · by_cases hin : s.InTable g
          · exact i.routeRemove hin
          · rw [routeRemove_of_not hin]
            exact (removed_removeRt s g).table i
  · obtain ⟨hnodes, hgates⟩ := trigger_other (s := s) (fun g hg => hgate ⟨g, hg⟩) u rest
    refine i.congr hnodes fun h hin => ?_
    rw [hgates]
    exact ⟨rfl, i.dynamic h hin⟩

/-- After an event has been triggered the routes have their events again. -/
theorem AllTimed.trigger (a : s.AllTimed) (i : s.Table home) (hevents : s.events = (o, t) :: q)
    (hright : ¬ ({ s with events := q } : RipState).WrongCollected o) (u : Advertisement)
    (rest : ℕ) : (({ s with events := q } : RipState).trigger u rest o).AllTimed := by
  obtain ⟨hqueue, ho⟩ := a.queue.tail hevents
  set s₁ : RipState := { s with events := q } with hs₁
  have i₁ : s₁.Table home := i.congr rfl fun h hin => ⟨rfl, i.dynamic h hin⟩
  -- all routes but the one whose event it is
  have hothers : ∀ h, .gate h ≠ o → s₁.InTable h → (s₁.gates h).learned ≠ none → s₁.Timed h := by
    intro h hne hin hlearned
    obtain ⟨hp, hm, he⟩ := a.timed h hin hlearned
    exact ⟨mem_tail hevents hne hp, hm, he⟩
  have hother : (∀ g, o ≠ .gate g) → (s₁.trigger u rest o).AllTimed := by
    intro hne
    obtain ⟨hnodes, hgates⟩ := trigger_other (s := s₁) hne u rest
    obtain ⟨hqueue', hkeep⟩ := a.queue.trigger_other hevents hne u rest
    refine ⟨hqueue', fun h hin hlearned => ?_⟩
    obtain ⟨n, hn, hh⟩ := hin
    rw [hgates] at hlearned
    obtain ⟨hp, hm, he⟩ := hothers h (hne h).symm ⟨n, hnodes ▸ hn, hh⟩ hlearned
    exact ⟨hkeep h hp, by rw [hgates]; exact hm, by rw [hgates]; exact he⟩
  cases o with
  | gate g =>
    have hothers' : ∀ h, h ≠ g → s₁.InTable h → (s₁.gates h).learned ≠ none → s₁.Timed h :=
      fun h hne => hothers h fun hc => hne (EventOwner.gate.inj hc)
    cases hevent : (s₁.gates g).event with
    | none =>
      rw [trigger_none hevent]
      refine ⟨hqueue, fun h hin hlearned => ?_⟩
      refine hothers' h (fun hc => ?_) hin hlearned
      have he := (a.timed h hin hlearned).event
      subst hc
      exact absurd (hevent.symm.trans he) (by simp)
    | some e =>
      cases e with
      | expireRte =>
        obtain ⟨hqueue', hkeep⟩ := hqueue.died u g
        have hg : .gate g ∉ eventOwners (s₁.died u g).events := fun hc => ho ((hkeep g).mp hc)
        rw [trigger_expireRte hevent]
        refine ⟨hqueue'.add hg eventAdd_owners rfl, fun h hin hlearned => ?_⟩
        have hin' : s₁.InTable h := by
          obtain ⟨n, hn, hh⟩ := hin
          exact ⟨n, died_nodes s₁ u g ▸ hn, hh⟩
        by_cases hne : h = g
        · subst hne
          refine ⟨mem_eventAdd.mpr (.inl rfl), ?_, ?_⟩
          · simp only [died_self]
            exact le_refl _
          · simp only [died_self]
            rfl
        · simp only [died_of_ne s₁ u hne] at hlearned
          obtain ⟨hp, hm, he⟩ := hothers' h hne hin' hlearned
          refine ⟨mem_eventAdd.mpr (.inr ((hkeep h).mpr hp)), ?_, ?_⟩
          · simp only [died_of_ne s₁ u hne]
            exact hm
          · simp only [died_of_ne s₁ u hne]
            exact he
      | expireGc =>
        rw [trigger_expireGc hevent]
        by_cases hin : s₁.InTable g
        · rw [if_neg (by rw [i₁.isDirect g hin]; exact Bool.false_ne_true)]
          refine routeRemove_timed i₁ hin hqueue hothers' fun hlearned => ?_
          by_contra hnot
          exact hright ⟨g, rfl, hevent, hlearned, hin, hnot⟩
        · have hall : s₁.AllTimed := ⟨hqueue, fun h hin' =>
            hothers' h (fun hc => hin (hc ▸ hin')) hin'⟩
          split
          · exact hall
          · have hr := removed_removeRt s₁ g
            rw [routeRemove_of_not hin]
            refine hall.change (g := g) hr.nodes
              (fun h hne => hr.others h fun hc => hne (List.mem_singleton.mp hc))
              (hr.queue hqueue)
              (fun h hne => hr.pending h fun hc => hne (List.mem_singleton.mp hc))
              fun hc => absurd hc hin
  | trigUpd => exact hother fun g => EventOwner.noConfusion
  | periodic => exact hother fun g => EventOwner.noConfusion

/-- What `P` says of the rounds of `TCPIP_Event_time`, each with the state in which its event has
left the queue. -/
def AlongRounds (P : RipState → EventOwner → Prop) : List Advertisement → ℕ → RipState → Prop
  | [], _, _ => True
  | u :: us, time, s =>
    match s.events with
    | [] => True
    | (o, t) :: q =>
      time < t ∨ P { s with events := q } o ∧
        AlongRounds P us (time - t) (({ s with events := q } : RipState).trigger u (time - t) o)

theorem Table.eventTime (i : s.Table home) (us : List Advertisement) (time : ℕ) :
    (RipState.eventTime us time s).Table home := by
  induction us generalizing s time with
  | nil => exact i
  | cons u us ih =>
    rw [RipState.eventTime]
    cases hevents : s.events with
    | nil => exact i
    | cons e q =>
      obtain ⟨o, t⟩ := e
      have i₁ : ({ s with events := q } : RipState).Table home :=
        i.congr rfl fun h hin => ⟨rfl, i.dynamic h hin⟩
      by_cases hlt : time < t
      · simp only [if_pos hlt]
        exact i.congr rfl fun h hin => ⟨rfl, i.dynamic h hin⟩
      · simp only [if_neg hlt]
        exact ih (i₁.trigger u (time - t) o) (time - t)

theorem AllTimed.eventTime (a : s.AllTimed) (i : s.Table home) {us : List Advertisement}
    (hright : AlongRounds (fun s o => ¬ s.WrongCollected o) us time s) :
    (RipState.eventTime us time s).AllTimed := by
  induction us generalizing s time with
  | nil => exact a
  | cons u us ih =>
    rw [RipState.eventTime]
    rw [AlongRounds] at hright
    cases hevents : s.events with
    | nil => exact a
    | cons e q =>
      obtain ⟨o, t⟩ := e
      rw [hevents] at hright
      have i₁ : ({ s with events := q } : RipState).Table home :=
        i.congr rfl fun h hin => ⟨rfl, i.dynamic h hin⟩
      by_cases hlt : time < t
      · simp only [if_pos hlt]
        have howners : eventOwners ((o, t - time) :: q) = eventOwners s.events := by
          rw [hevents]
          rfl
        refine ⟨⟨?_, ?_⟩, fun h hin hlearned => ?_⟩
        · simp only [howners]
          exact a.queue.owners
        · simp only [howners]
          exact a.queue.running
        · obtain ⟨hp, hm, he⟩ := a.timed h hin hlearned
          exact ⟨by simp only [howners]; exact hp, hm, he⟩
      · simp only [if_neg hlt]
        obtain ⟨hround, hrounds⟩ := hright.resolve_left hlt
        exact ih (a.trigger i hevents hround u (time - t)) (i₁.trigger u (time - t) o) hrounds

/-! ## Responses -/

/-- What `P` says of the entries of a response, each with the state before it. -/
def AlongEntries (ips : IpAddresses) (r : RipResponse) (P : RipState → RipRte × RipMemory → Prop) :
    RipState → List (RipRte × RipMemory) → Prop
  | _, [] => True
  | s, e :: es => P s e ∧ AlongEntries ips r P (s.processEntry ips r e) es

/-- A new route gets a block that is in use nowhere. -/
def FreshMemory (s : RipState) (e : RipRte × RipMemory) : Prop :=
  ∀ g, e.2.gate = some g → s.Fresh g

/-- The entry makes a route lose its event. -/
def LosesTimer (ips : IpAddresses) (r : RipResponse) (s : RipState) (e : RipRte × RipMemory) :
    Prop :=
  isValidRte ips e.1 = true ∧
    ∃ g, s.routeGet e.1.netAddr (entryMask r.version e.1) = .gate g ∧ s.DeadAgain r g e.1

/-- The route is one to the network of the entry, learned from the sender. -/
def Advertises (r : RipResponse) (s : RipState) (rte : RipRte) (g : ℕ) : Prop :=
  (∃ n ∈ s.nodes, n.ip = rte.netAddr &&& entryMask r.version rte ∧
    n.mask = entryMask r.version rte ∧ g ∈ n.indirect) ∧
    (s.gates g).learned = some r.source

/-- The entry sets the metric of the routes that were learned from the sender. -/
def SetsMetric (ips : IpAddresses) (r : RipResponse) (s : RipState) (e : RipRte × RipMemory) :
    Prop :=
  isValidRte ips e.1 = true → ∀ g, Advertises r s e.1 g →
    ((s.processEntry ips r e).gates g).ripMetric = min (e.1.metric + 1) 16

/-- The routes that were learned from the sender have the metric already; or the route is found
by the address as it is in the entry, and the sender is its gateway or has a smaller metric. -/
def FindsRoute (ips : IpAddresses) (r : RipResponse) (s : RipState) (e : RipRte × RipMemory) :
    Prop :=
  isValidRte ips e.1 = true → ∀ g, Advertises r s e.1 g →
    (s.gates g).ripMetric = min (e.1.metric + 1) 16 ∨
      s.routeGet e.1.netAddr (entryMask r.version e.1) = .gate g ∧
        (r.source = (s.gates g).gateway ∨ min (e.1.metric + 1) 16 < (s.gates g).ripMetric)

theorem createRt_none (hm : m.gate = none) : s.createRt ips r rte m = s := by
  unfold createRt
  rw [hm]

/-- What an entry does. -/
theorem processEntry_cases (ips : IpAddresses) (r : RipResponse) (s : RipState)
    (e : RipRte × RipMemory) :
    s.processEntry ips r e = s ∨
      (∃ g, e.2.gate = some g ∧
        s.routeGet e.1.netAddr (entryMask r.version e.1) = .none ∧
        s.processEntry ips r e = s.createRt ips r e.1 e.2) ∨
      ∃ g, isValidRte ips e.1 = true ∧
        s.routeGet e.1.netAddr (entryMask r.version e.1) = .gate g ∧
        s.processEntry ips r e = s.updateRt ips r g e.1 := by
  unfold processEntry
  by_cases hvalid : isValidRte ips e.1 = true
  · rw [if_pos hvalid]
    cases hget : s.routeGet e.1.netAddr (entryMask r.version e.1) with
    | none =>
      cases hm : e.2.gate with
      | none => exact .inl (createRt_none hm)
      | some g => exact .inr (.inl ⟨g, rfl, rfl, rfl⟩)
    | connected => exact .inl rfl
    | gate g => exact .inr (.inr ⟨g, hvalid, rfl, rfl⟩)
  · rw [if_neg hvalid]
    exact .inl rfl

theorem Table.processEntry {e : RipRte × RipMemory} (i : s.Table home) (hfresh : s.FreshMemory e) :
    ∃ home, (s.processEntry ips r e).Table home := by
  rcases processEntry_cases ips r s e with h | ⟨g, hg, -, h⟩ | ⟨g, -, -, h⟩
  · rw [h]
    exact ⟨home, i⟩
  · rw [h]
    exact i.createRt hg (hfresh g hg)
  · rw [h]
    exact ⟨home, i.updateRt⟩

theorem AllTimed.processEntry {e : RipRte × RipMemory} (a : s.AllTimed)
    (hfresh : s.FreshMemory e) (hkeeps : ¬ s.LosesTimer ips r e) :
    (s.processEntry ips r e).AllTimed := by
  rcases processEntry_cases ips r s e with h | ⟨g, hg, -, h⟩ | ⟨g, hvalid, hget, h⟩
  · rw [h]
    exact a
  · rw [h]
    exact a.createRt hg (hfresh g hg)
  · rw [h]
    exact a.updateRt fun _ hdead => hkeeps ⟨hvalid, g, hget, hdead⟩

theorem cpuMetric_eq (hvalid : isValidRte ips rte = true) :
    cpuMetric rte.metric = min (rte.metric + 1) 16 := by
  have hle : rte.metric ≤ 16 := by
    unfold isValidRte at hvalid
    simp only [Bool.not_eq_true', Bool.or_eq_false_iff, decide_eq_false_iff_not] at hvalid
    exact not_lt.mp hvalid.1.1.1.2.1
  unfold cpuMetric
  rw [Nat.mod_eq_of_lt (by omega), Nat.add_comm]
  rfl

/-- The metric is set just when the route is found and the sender may set it. -/
theorem setsMetric_iff {e : RipRte × RipMemory} (i : s.Table home) (hfresh : s.FreshMemory e) :
    s.SetsMetric ips r e ↔ s.FindsRoute ips r e := by
  refine forall_congr' fun hvalid => forall_congr' fun g => forall_congr' fun hadv => ?_
  have hin : s.InTable g := by
    obtain ⟨⟨n, hn, -, -, hg⟩, -⟩ := hadv
    exact ⟨n, hn, hg⟩
  have hstatic := i.dynamic g hin (by rw [hadv.2]; simp)
  rw [← cpuMetric_eq hvalid]
  -- another route is found, or none: the metric stays
  have hstays : s.routeGet e.1.netAddr (entryMask r.version e.1) ≠ .gate g →
      (s.processEntry ips r e).gates g = s.gates g := by
    intro hget
    rcases processEntry_cases ips r s e with h | ⟨x, hx, -, h⟩ | ⟨x, -, hx, h⟩
    · rw [h]
    · rw [h]
      exact createRt_of_ne hx fun hc => (hfresh x hx).1 (hc ▸ hin)
    · rw [h]
      exact updateRt_of_ne fun hc => hget (hc ▸ hx)
  by_cases hget : s.routeGet e.1.netAddr (entryMask r.version e.1) = .gate g
  · have hprocess : s.processEntry ips r e = s.updateRt ips r g e.1 := by
      unfold RipState.processEntry
      rw [if_pos hvalid, hget]
    rw [hprocess]
    rcases updateRt_cases ips r s g e.1 with
      ⟨hu, hwhy⟩ | ⟨-, ⟨-, hsame, -, hu⟩ | ⟨-, hsame, -, hu⟩ | ⟨hbetter, hu⟩⟩
    · have hworse := hwhy.resolve_left (not_not_intro hstatic)
      rw [hu]
      refine ⟨.inl, fun h => h.elim id fun h => ?_⟩
      exact absurd (h.2.resolve_left hworse.1) (not_lt.mpr hworse.2)
    · rw [hu, initTimer_self]
      exact iff_of_true hsame (.inl hsame)
    · rw [hu]
      exact iff_of_true hsame (.inl hsame)
    · have hset : ((s.updateRt ips r g e.1).gates g).ripMetric = cpuMetric e.1.metric := by
        rw [hu]
        show (((s.cancelled g).adoptRt ips r g e.1 (cpuMetric e.1.metric)).gates g).ripMetric = _
        rw [adoptRt_self]
      refine iff_of_true hset ?_
      by_cases hown : r.source = (s.gates g).gateway
      · exact .inr ⟨hget, .inl hown⟩
      · rcases (hbetter hown).lt_or_eq with hlt | heq
        · exact .inr ⟨hget, .inr hlt⟩
        · exact .inl heq.symm
  · rw [hstays hget]
    exact ⟨.inl, fun h => h.elim id fun h => absurd h.1 hget⟩

theorem Table.processEntries (i : s.Table home) {es : List (RipRte × RipMemory)}
    (hfresh : AlongEntries ips r FreshMemory s es) :
    ∃ home, (es.foldl (RipState.processEntry ips r) s).Table home := by
  induction es generalizing s home with
  | nil => exact ⟨home, i⟩
  | cons e es ih =>
    have hstep : ∃ home, (s.processEntry ips r e).Table home := i.processEntry hfresh.1
    obtain ⟨home', i'⟩ := hstep
    exact ih i' hfresh.2

theorem AllTimed.processEntries (a : s.AllTimed) {es : List (RipRte × RipMemory)}
    (hfresh : AlongEntries ips r FreshMemory s es)
    (hkeeps : AlongEntries ips r (fun s e => ¬ s.LosesTimer ips r e) s es) :
    (es.foldl (RipState.processEntry ips r) s).AllTimed := by
  induction es generalizing s with
  | nil => exact a
  | cons e es ih => exact ih (a.processEntry hfresh.1 hkeeps.1) hfresh.2 hkeeps.2

theorem setsMetrics_iff (i : s.Table home) {es : List (RipRte × RipMemory)}
    (hfresh : AlongEntries ips r FreshMemory s es) :
    AlongEntries ips r (SetsMetric ips r) s es ↔ AlongEntries ips r (FindsRoute ips r) s es := by
  induction es generalizing s home with
  | nil => exact Iff.rfl
  | cons e es ih =>
    have hstep : ∃ home, (s.processEntry ips r e).Table home := i.processEntry hfresh.1
    obtain ⟨home', i'⟩ := hstep
    exact and_congr (setsMetric_iff i hfresh.1) (ih i' hfresh.2)

/-! ## Runs -/

variable {op : RipOp} {ops : List RipOp}

def apply (ips : IpAddresses) (s : RipState) : RipOp → RipState
  | .response r u => s.processInresp ips r u
  | .time us time => eventTime us time s

/-- What `P` says of the entries of the responses that are processed. -/
def OnEntries (ips : IpAddresses) (P : RipResponse → RipState → RipRte × RipMemory → Prop)
    (s : RipState) : RipOp → Prop
  | .response r _ => isValidResp ips r = true → AlongEntries ips r (P r) s r.entries
  | .time _ _ => True

/-- What `P` says of the events that are triggered. -/
def OnEvents (P : RipState → EventOwner → Prop) (s : RipState) : RipOp → Prop
  | .response _ _ => True
  | .time us time => AlongRounds P us time s

/-- What `P` says of a step and the state before it holds along a run. -/
def Along (ips : IpAddresses) (P : RipState → RipOp → Prop) : RipState → List RipOp → Prop
  | _, [] => True
  | s, op :: ops => P s op ∧ Along ips P (s.apply ips op) ops

/-- Each route that RIP has learned and that is in the table has one event, and the right one. -/
def OnePending (s : RipState) : Prop :=
  ∀ g, s.InTable g → (s.gates g).learned ≠ none →
    (eventOwners s.events).count (.gate g) = 1 ∧ (s.gates g).ripMetric ≤ 16 ∧
      (s.gates g).event = some (if (s.gates g).ripMetric < 16 then .expireRte else .expireGc)

/-- Before the first response RIP has learned nothing. -/
structure Initial (s : RipState) : Prop where
  table : ∃ home, s.Table home
  queue : s.Queue
  learned : ∀ g, s.InTable g → (s.gates g).learned = none

theorem AllTimed.onePending (a : s.AllTimed) : s.OnePending := by
  intro g hin hlearned
  obtain ⟨hp, hm, he⟩ := a.timed g hin hlearned
  exact ⟨List.count_eq_one_of_mem a.queue.owners hp, hm, he⟩

theorem Table.apply (i : s.Table home) (hfresh : s.OnEntries ips (fun _ => FreshMemory) op) :
    ∃ home, (s.apply ips op).Table home := by
  cases op with
  | response r u =>
    show ∃ home, (s.processInresp ips r u).Table home
    unfold processInresp
    by_cases hvalid : isValidResp ips r = true
    · obtain ⟨home', i'⟩ := i.processEntries (hfresh hvalid)
      rw [if_pos hvalid]
      simp only
      split
      · exact ⟨home', i'.trigUpd u⟩
      · exact ⟨home', i'⟩
    · rw [if_neg hvalid]
      exact ⟨home, i⟩
  | time us time => exact ⟨home, i.eventTime us time⟩

theorem AllTimed.apply (a : s.AllTimed) (i : s.Table home)
    (hfresh : s.OnEntries ips (fun _ => FreshMemory) op)
    (hkeeps : s.OnEntries ips (fun r s e => ¬ s.LosesTimer ips r e) op)
    (hright : s.OnEvents (fun s o => ¬ s.WrongCollected o) op) : (s.apply ips op).AllTimed := by
  cases op with
  | response r u =>
    show (s.processInresp ips r u).AllTimed
    unfold processInresp
    by_cases hvalid : isValidResp ips r = true
    · have a' := a.processEntries (hfresh hvalid) (hkeeps hvalid)
      rw [if_pos hvalid]
      simp only
      split
      · exact a'.trigUpd u
      · exact a'
    · rw [if_neg hvalid]
      exact a
  | time us time => exact a.eventTime i hright

theorem along_onePending (a : s.AllTimed) (i : s.Table home)
    (hfresh : s.Along ips (OnEntries ips fun _ => FreshMemory) ops)
    (hkeeps : s.Along ips (OnEntries ips fun r s e => ¬ s.LosesTimer ips r e) ops)
    (hright : s.Along ips (fun s op => s.OnEvents (fun s o => ¬ s.WrongCollected o) op) ops) :
    s.Along ips (fun s op => (s.apply ips op).OnePending) ops := by
  induction ops generalizing s home with
  | nil => trivial
  | cons op ops ih =>
    have a' := a.apply i hfresh.1 hkeeps.1 hright.1
    obtain ⟨home', i'⟩ := i.apply hfresh.1
    exact ⟨a'.onePending, ih a' i' hfresh.2 hkeeps.2 hright.2⟩

theorem along_setsMetric (i : s.Table home)
    (hfresh : s.Along ips (OnEntries ips fun _ => FreshMemory) ops) :
    s.Along ips (OnEntries ips (SetsMetric ips)) ops ↔
      s.Along ips (OnEntries ips (FindsRoute ips)) ops := by
  induction ops generalizing s home with
  | nil => exact Iff.rfl
  | cons op ops ih =>
    obtain ⟨home', i'⟩ := i.apply hfresh.1
    refine and_congr ?_ (ih i' hfresh.2)
    cases op with
    | response r u => exact forall_congr' fun hvalid => setsMetrics_iff i (hfresh.1 hvalid)
    | time us time => exact Iff.rfl

/-- In a run in which no router of a dead route says once more that it is dead, and no garbage
collection takes another route, every route that RIP has learned has one event after each step.
The metrics are set just when the routes are found by the addresses as they are in the entries
and the senders are their gateways or have smaller metrics. -/
theorem rip_route_timers (hinit : s.Initial)
    (hfresh : s.Along ips (OnEntries ips fun _ => FreshMemory) ops) :
    (s.Along ips (OnEntries ips fun r s e => ¬ s.LosesTimer ips r e) ops →
        s.Along ips (fun s op => s.OnEvents (fun s o => ¬ s.WrongCollected o) op) ops →
        s.Along ips (fun s op => (s.apply ips op).OnePending) ops) ∧
      (s.Along ips (OnEntries ips (SetsMetric ips)) ops ↔
        s.Along ips (OnEntries ips (FindsRoute ips)) ops) := by
  obtain ⟨home, i⟩ := hinit.table
  have a : s.AllTimed :=
    ⟨hinit.queue, fun g hin hlearned => absurd (hinit.learned g hin) hlearned⟩
  exact ⟨along_onePending a i hfresh, along_setsMetric i hfresh⟩

/-- No routes and no events. -/
def noRoutes : RipState := ⟨[], fun _ => ⟨0, false, 0, 0, 0, none, none⟩, [], false, false⟩

theorem noRoutes_initial : noRoutes.Initial where
  table := ⟨fun _ => (0, 0), List.nodup_nil, by simp [noRoutes], by simp [noRoutes],
    by simp [noRoutes], by simp [InTable, noRoutes], by simp [InTable, noRoutes]⟩
  queue := ⟨List.nodup_nil, by simp [noRoutes, eventOwners]⟩
  learned := by simp [InTable, noRoutes]

/-- All addresses but 3 are those of neighbours. -/
def neighbours : IpAddresses := ⟨fun _ _ => true, fun a => a = 3⟩

/-- The router 1 advertises the network 10.0.0.0/24, with a next hop. -/
def advertised (metric : ℕ) (nextHop : IpAddress) : RipOp :=
  .response ⟨1, 520, 0, 2, [(⟨2, 0x0A000000, 0xFFFFFF00, nextHop, metric⟩, ⟨some 0, true⟩)]⟩
    ⟨true, 1000⟩

/-- A route is learned and some time passes. -/
theorem rip_route_timers_learned : noRoutes.Along neighbours
    (fun s op => (s.apply neighbours op).OnePending)
    [advertised 5 0, .time [⟨true, 1000⟩] 10] := by
  have hfresh : noRoutes.Along neighbours (OnEntries neighbours fun _ => FreshMemory)
      [advertised 5 0, .time [⟨true, 1000⟩] 10] := by
    refine ⟨fun _ => ⟨fun g hg => ⟨fun hc => ?_, fun hc => ?_⟩, trivial⟩, trivial, trivial⟩
    · obtain ⟨n, hn, -⟩ := hc
      exact List.not_mem_nil hn
    · exact List.not_mem_nil hc
  have hkeeps : noRoutes.Along neighbours
      (OnEntries neighbours fun r s e => ¬ s.LosesTimer neighbours r e)
      [advertised 5 0, .time [⟨true, 1000⟩] 10] := by
    refine ⟨fun _ => ⟨fun hc => ?_, trivial⟩, trivial, trivial⟩
    obtain ⟨-, g, hget, -⟩ := hc
    exact FoundRoute.noConfusion hget
  have hright : noRoutes.Along neighbours
      (fun s op => s.OnEvents (fun s o => ¬ s.WrongCollected o) op)
      [advertised 5 0, .time [⟨true, 1000⟩] 10] := by
    refine ⟨trivial, .inl ?_, trivial⟩
    decide
  exact (rip_route_timers noRoutes_initial hfresh).1 hkeeps hright

/-- The router says twice that its route is dead: the route stays without an event. A route
whose gateway is the next hop does not get the larger metric of its router. -/
theorem rip_route_timers_lost :
    ¬ noRoutes.Along neighbours (fun s op => (s.apply neighbours op).OnePending)
        [advertised 5 0, advertised 16 0, advertised 16 0] ∧
      ¬ noRoutes.Along neighbours (OnEntries neighbours (SetsMetric neighbours))
        [advertised 5 2, advertised 7 2] := by
  constructor
  · intro h
    have hpending := (h.2.2.1 0 ⟨⟨0x0A000000, 0xFFFFFF00, false, [0]⟩, by decide, by decide⟩
      (by decide)).1
    exact absurd hpending (by decide)
  · intro h
    have hset := (h.2.1 (by decide)).1 (by decide) 0
      ⟨⟨⟨0x0A000000, 0xFFFFFF00, false, [0]⟩, by decide, by decide, by decide, by decide⟩,
        by decide⟩
    exact absurd hset (by decide)

end RipState

end Mqx.Rtcs
