import Mqx.Rtcs.RipResp

/-!
# What a response holds

The loops of `RIP_send_resp_ipif` visit the routes of the table one after the other. As a packet
is taken for full only with twenty-six entries, the twenty-sixth is written beyond the end of the
packet; and a walk that comes to no route leaves no packet for the end.
-/

namespace Mqx
namespace Rtcs

namespace RespCall

variable (c : RespCall) {r : RouteAt} {first : Option ℕ} {d d' : RespData} {h : RadixHeap IpRoute}
  {root : ℕ}

/-! ## The loops -/

/-- What the place of a route in the lists of its node says of its kind. -/
structure KindAt (r : RouteAt) (first : Option ℕ) : Prop where
  virtual : first = r.route.virtual.head? ↔ r.kind = .virtual
  indirect : first = r.route.indirect.head? ↔ r.kind = .indirect

theorem respRte_eq (hkind : KindAt r first) (address : IpAddress) :
    c.respRte r.route r.mask first r.gate address = c.announce r address := by
  simp only [respRte, announce, hkind.indirect]

theorem passes_iff :
    c.Passes r ↔ ¬(c.onlyChangeF = true ∧ ¬(c.gates r.gate).changedF = true) ∧
      ¬(c.gates r.gate).flags &&& RTF_REDIRECT ≠ 0 := by
  rw [Passes, not_and_not_right, not_not]

/-- A turn of the loop over `vcount` is a visit. -/
theorem vcountLoop_succ (hkind : KindAt r first) (hreached : c.Reached r) {vcount : ℕ}
    {address : IpAddress}
    (haddress : (if vcount + 1 = 1 then c.virtualAddress r.route else r.ip) = address)
    (d : RespData) :
    c.vcountLoop r.route r.ip r.mask first r.gate (vcount + 1) d =
      if c.Passes r then
        (c.visit d (r.gate, some (c.announce r address))).bind fun d =>
          if c.Valid r address ∧ r.kind = .virtual then
            c.vcountLoop r.route r.ip r.mask first r.gate vcount d
          else .ok d
      else c.visit d (r.gate, none) := by
  rw [vcountLoop, if_neg hreached.2, visit, visit, haddress]
  cases d.allocPacket c.memory with
  | error d => simp [Except.bind]
  | ok d =>
    simp only [Except.bind, Option.elim_none, Option.elim_some, c.respRte_eq hkind,
      hkind.virtual]
    by_cases hpasses : c.Passes r
    · have hp := c.passes_iff.1 hpasses
      rw [if_neg hp.1, if_neg hp.2, if_pos hpasses]
      rfl
    · rw [if_neg hpasses]
      by_cases hchanged : c.onlyChangeF = true ∧ ¬(c.gates r.gate).changedF = true
      · rw [if_pos hchanged]
      · have hredirect : (c.gates r.gate).flags &&& RTF_REDIRECT ≠ 0 := by
          by_contra hr
          exact hpasses (c.passes_iff.2 ⟨hchanged, not_not.2 hr⟩)
        rw [if_neg hchanged, if_pos hredirect]

/-- The loop over `vcount` makes the visits of a route. -/
theorem vcountLoop_eq (hkind : KindAt r first)
    (hhost : ~~~r.mask = 0 → r.kind = .virtual ∧ r.ip ≠ c.virtualAddress r.route)
    (d : RespData) :
    c.vcountLoop r.route r.ip r.mask first r.gate 2 d = (c.visits r).foldlM c.visit d := by
  by_cases hreached : c.Reached r
  · rw [c.vcountLoop_succ hkind hreached (if_neg (by decide))]
    by_cases hpasses : c.Passes r
    · rw [if_pos hpasses, visits, if_neg (fun h => h.2 hpasses), tries,
        if_pos ⟨hreached, hpasses⟩, List.map_cons, List.foldlM_cons]
      refine congrArg _ (funext fun d => ?_)
      by_cases hvalid : c.Valid r r.ip ∧ r.kind = .virtual
      · rw [if_pos hvalid, if_pos hvalid, c.vcountLoop_succ hkind hreached (if_pos rfl),
          if_pos hpasses, List.map_singleton, List.foldlM_cons]
        refine congrArg _ (funext fun d => ?_)
        rw [vcountLoop, ite_self]
        rfl
      · rw [if_neg hvalid, if_neg hvalid]
        rfl
    · rw [if_neg hpasses, visits, if_pos ⟨hreached, hpasses⟩, List.foldlM_cons]
      cases c.visit d (r.gate, none) with
      | error d => rfl
      | ok d => rfl
  · have htunnel : some r.gate = r.route.virtual.head? ∧ c.virtualAddress r.route = 0 := by
      by_contra hne
      exact hreached ⟨hhost, hne⟩
    rw [vcountLoop, if_pos htunnel, visits, if_neg (fun h => hreached h.1), tries,
      if_neg (fun h => hreached h.1)]
    rfl

theorem foldlM_flatMap {α β : Type} {f : α → List β} {g : RespData → β → Except RespData RespData}
    (l : List α) (d : RespData) :
    (l.flatMap f).foldlM g d = l.foldlM (fun d a => (f a).foldlM g d) d := by
  induction l generalizing d with
  | nil => rfl
  | cons a l ih =>
    rw [List.flatMap_cons, List.foldlM_append, List.foldlM_cons]
    exact congrArg _ (funext ih)

/-- No route is in two lists of a node. -/
def Separate (route : IpRoute) : Prop :=
  ((routesAt 0 0 route).map RouteAt.gate).Nodup

theorem Separate.kind_eq {route : IpRoute} (hsep : Separate route) {kind kind' : RouteKind} {g : ℕ}
    (hg : g ∈ route.list kind) (hg' : g ∈ route.list kind') : kind = kind' := by
  rw [Separate, routesAt, List.map_flatMap] at hsep
  simp only [List.map_map, List.flatMap_cons, List.flatMap_nil, List.append_nil,
    List.nodup_append] at hsep
  obtain ⟨-, ⟨-, -, hvi⟩, hd⟩ := hsep
  have hdirect : ∀ kind, kind ≠ .direct → g ∈ route.direct → g ∉ route.list kind := by
    intro kind hne hgd hgk
    refine hd g (by simpa [IpRoute.list] using hgd) g ?_ rfl
    cases kind with
    | direct => exact absurd rfl hne
    | virtual => simp [show g ∈ route.list .virtual from hgk]
    | indirect => simp [show g ∈ route.list .indirect from hgk]
  have hvirtual : g ∈ route.virtual → g ∉ route.indirect := by
    intro hgv hgi
    exact hvi g (by simpa [IpRoute.list] using hgv) g (by simpa [IpRoute.list] using hgi) rfl
  cases kind with
  | direct =>
    by_contra hne
    exact hdirect kind' (Ne.symm hne) hg hg'
  | virtual =>
    cases kind' with
    | direct => exact absurd hg (hdirect .virtual (by simp) hg')
    | virtual => rfl
    | indirect => exact absurd hg' (hvirtual hg)
  | indirect =>
    cases kind' with
    | direct => exact absurd hg (hdirect .indirect (by simp) hg')
    | virtual => exact absurd hg (hvirtual hg')
    | indirect => rfl

theorem Separate.kindAt {route : IpRoute} (hsep : Separate route) (ip mask : IpAddress)
    {kind : RouteKind} {g : ℕ} (hg : g ∈ route.list kind) :
    KindAt ⟨ip, mask, route, kind, g⟩ (route.list kind).head? := by
  obtain ⟨x, l, hlist⟩ := List.exists_cons_of_ne_nil (List.ne_nil_of_mem hg)
  have hhead : ∀ kind', (route.list kind).head? = (route.list kind').head? ↔ kind = kind' := by
    intro kind'
    constructor
    · intro heq
      rw [hlist, List.head?_cons] at heq
      exact hsep.kind_eq (by rw [hlist]; exact List.mem_cons_self)
        (List.mem_of_head? heq.symm)
    · rintro rfl
      rfl
  exact ⟨hhead .virtual, hhead .indirect⟩

/-- The loop over a list makes the visits of its routes. -/
theorem listLoop_eq {route : IpRoute} (hsep : Separate route) {ip mask : IpAddress}
    {kind : RouteKind}
    (hhost : ~~~mask = 0 → kind = .virtual ∧ ip ≠ c.virtualAddress route) (d : RespData) :
    c.listLoop route ip mask (route.list kind) d =
      (((route.list kind).map (RouteAt.mk ip mask route kind)).flatMap c.visits).foldlM c.visit
        d := by
  have hgates : ∀ (l : List ℕ) d, (∀ g ∈ l, g ∈ route.list kind) →
      l.foldlM (fun d g => c.vcountLoop route ip mask (route.list kind).head? g 2 d) d =
        ((l.map (RouteAt.mk ip mask route kind)).flatMap c.visits).foldlM c.visit d := by
    intro l
    induction l with
    | nil => exact fun _ _ => rfl
    | cons g l ih =>
      intro d hl
      rw [List.forall_mem_cons] at hl
      have hg := c.vcountLoop_eq (hsep.kindAt ip mask hl.1) hhost d
      rw [List.foldlM_cons, List.map_cons, List.flatMap_cons, List.foldlM_append, ← hg]
      exact congrArg _ (funext fun d => ih d hl.2)
  exact hgates _ d fun _ hg => hg

theorem visits_eq_nil (hreached : ¬c.Reached r) : c.visits r = [] := by
  rw [visits, if_neg (fun h => hreached h.1), tries, if_neg (fun h => hreached h.1), List.map_nil]

/-- At a node the visits of its routes are made. -/
theorem sendRespIpifTest_eq {route : IpRoute} (hsep : Separate route) (ip mask : IpAddress)
    (d : RespData) :
    c.sendRespIpifTest ip mask (some route) d =
      outcome (((routesAt ip mask route).flatMap c.visits).foldlM c.visit d) := by
  have hlist : ∀ kind, (~~~mask = 0 → kind = .virtual ∧ ip ≠ c.virtualAddress route) → ∀ d,
      c.listLoop route ip mask (route.list kind) d =
        (((route.list kind).map (RouteAt.mk ip mask route kind)).flatMap c.visits).foldlM
          c.visit d := fun kind hhost d => c.listLoop_eq hsep hhost d
  have hnone : ∀ kind, ¬(~~~mask = 0 → kind = .virtual ∧ ip ≠ c.virtualAddress route) →
      ((route.list kind).map (RouteAt.mk ip mask route kind)).flatMap c.visits = [] := by
    intro kind hhost
    rw [List.flatMap_map, List.flatMap_eq_nil_iff]
    exact fun g _ => c.visits_eq_nil fun hreached => hhost hreached.1
  rw [sendRespIpifTest, routesAt, List.flatMap_assoc, foldlM_flatMap, rstart]
  refine congrArg outcome ?_
  by_cases hhost : ~~~mask = 0
  · rw [if_pos hhost]
    have hother : ∀ kind, kind ≠ .virtual →
        ((route.list kind).map (RouteAt.mk ip mask route kind)).flatMap c.visits = [] :=
      fun kind hne => hnone kind fun hall => hne (hall hhost).1
    simp only [List.foldlM_cons, List.foldlM_nil, hother .direct (by simp),
      hother .indirect (by simp), pure_bind]
    by_cases haddress : route.virtual ≠ [] ∧ ip ≠ c.virtualAddress route
    · rw [if_pos haddress, ← hlist .virtual fun _ => ⟨rfl, haddress.2⟩]
      rfl
    · have hvirtual : ((route.list .virtual).map
          (RouteAt.mk ip mask route .virtual)).flatMap c.visits = [] := by
        by_cases hnil : route.virtual = []
        · rw [IpRoute.list, hnil]
          rfl
        · exact hnone .virtual fun hall => haddress ⟨hnil, (hall hhost).2⟩
      rw [if_neg haddress, hvirtual]
      rfl
  · rw [if_neg hhost]
    simp only [List.foldlM_cons, List.foldlM_nil, ← hlist _ fun h => absurd h hhost]
    rfl

theorem outcome_bind (e : Except RespData RespData) (f : RespData → Except RespData RespData) :
    outcome (e.bind f) =
      if (outcome e).1 then outcome e else outcome (f (outcome e).2) := by
  cases e with
  | error d => rfl
  | ok d => rfl

/-- The walk makes the visits of the routes of the table. -/
theorem visitAll_eq {nodes : List (ℕ × RadixNode IpRoute)}
    (hsep : ∀ n ∈ nodes, ∀ route, n.2.data = some route → Separate route) (d : RespData) :
    visitAll c.sendRespIpifTest nodes d =
      outcome ((nodes.flatMap fun n =>
        (n.2.data.elim [] (routesAt n.2.ip n.2.mask)).flatMap c.visits).foldlM c.visit d) := by
  induction nodes generalizing d with
  | nil => rfl
  | cons n nodes ih =>
    rw [List.forall_mem_cons] at hsep
    have hnode : c.sendRespIpifTest n.2.ip n.2.mask n.2.data d = outcome
        (((n.2.data.elim [] (routesAt n.2.ip n.2.mask)).flatMap c.visits).foldlM c.visit d) := by
      cases hdata : n.2.data with
      | none => rfl
      | some route => exact c.sendRespIpifTest_eq (hsep.1 route hdata) n.2.ip n.2.mask d
    rw [visitAll, List.flatMap_cons, List.foldlM_append, hnode]
    refine Eq.trans ?_ (outcome_bind _ _).symm
    simp only [ih hsep.2]

/-- The routes of the table are apart: none is in two lists. -/
def Apart (h : RadixHeap IpRoute) (root : ℕ) : Prop :=
  ((routesOf h root).map RouteAt.gate).Nodup

theorem Apart.separate (hapart : Apart h root) {n : ℕ × RadixNode IpRoute} {route : IpRoute}
    (hn : n ∈ nodesOf h root) (hroute : n.2.data = some route) : Separate route := by
  rw [Apart, routesOf, List.map_flatMap] at hapart
  have hnode := (List.nodup_flatMap.1 hapart).1 n hn
  rw [hroute, Option.elim_some] at hnode
  have hgates : (routesAt n.2.ip n.2.mask route).map RouteAt.gate =
      (routesAt 0 0 route).map RouteAt.gate := by
    simp [routesAt, Function.comp_def]
  rwa [hgates] at hnode

/-- What is left after the walk. -/
def walked (h : RadixHeap IpRoute) (root : ℕ) : RespData :=
  (outcome (((routesOf h root).flatMap c.visits).foldlM c.visit ⟨none, 0, [], 0⟩)).2

theorem sendRespIpif_eq (hl : RadixLinks root h) (hapart : Apart h root) :
    ∃ turns, ∀ fuel ≥ turns, c.sendRespIpif fuel root h = some (finish (c.walked h root)) := by
  obtain ⟨turns, hturns⟩ := hl.ipradixWalk_eq c.sendRespIpifTest ⟨none, 0, [], 0⟩
  refine ⟨turns, fun fuel hfuel => ?_⟩
  rw [sendRespIpif, hturns fuel hfuel, Option.map_some, walked, routesOf, List.flatMap_assoc,
    c.visitAll_eq fun n hn route hroute => hapart.separate hn hroute]

/-! ## The packet -/

/-- A packet that is never full: one allocation, nothing sent and nothing beyond the end. -/
structure Filling (d : RespData) (entries : List (ℕ × RipEntry)) : Prop where
  pkt : d.pkt = some entries
  sent : d.sent = []
  inPacket : d.reached ≤ RIP_MAX_PKTLEN
  length : entries.length ≤ 25

theorem reached_le_putEntry (valid : Bool) (g : ℕ) (rte : RipEntry) (d : RespData) :
    d.reached ≤ (d.putEntry valid g rte).reached := by
  rw [RespData.putEntry]
  dsimp only
  split_ifs <;> exact le_max_left _ _

theorem reached_le_visit (v : ℕ × Option RipEntry) (d : RespData) :
    d.reached ≤ (outcome (c.visit d v)).2.reached := by
  rw [visit, RespData.allocPacket]
  obtain ⟨g, rte⟩ := v
  cases d.pkt with
  | some entries =>
    cases rte with
    | none => exact le_rfl
    | some rte => exact reached_le_putEntry _ _ _ _
  | none =>
    dsimp only
    split_ifs
    · cases rte with
      | none => exact le_max_left _ _
      | some rte =>
        exact le_trans (le_max_left d.reached ripHeaderSize)
          (reached_le_putEntry (isValidRte c.ips rte.toRipRte) g rte
            ⟨some [], d.allocs + 1, d.sent, max d.reached ripHeaderSize⟩)
    · exact le_rfl

theorem reached_le_visits (l : List (ℕ × Option RipEntry)) (d : RespData) :
    d.reached ≤ (outcome (l.foldlM c.visit d)).2.reached := by
  induction l generalizing d with
  | nil => exact le_rfl
  | cons v l ih =>
    rw [List.foldlM_cons]
    have hvisit := c.reached_le_visit v d
    cases hv : c.visit d v with
    | error d' =>
      rw [hv] at hvisit
      exact hvisit
    | ok d' =>
      rw [hv] at hvisit
      exact hvisit.trans (ih d')

/-- There is room for each entry that is built, with `n` entries in the packet before. -/
def Room (n : ℕ) : List RipEntry → Prop
  | [] => True
  | rte :: l => n ≤ 24 ∧ Room (if isValidRte c.ips rte.toRipRte then n + 1 else n) l

theorem room_iff (n : ℕ) (l : List RipEntry) :
    c.Room n l ↔ ∀ pre rte post, l = pre ++ rte :: post →
      n + (pre.filter fun rte => isValidRte c.ips rte.toRipRte).length ≤ 24 := by
  induction l generalizing n with
  | nil => simp [Room]
  | cons rte l ih =>
    rw [Room, ih]
    have hcount : ∀ pre : List RipEntry,
        (if isValidRte c.ips rte.toRipRte then n + 1 else n) +
            (pre.filter fun rte => isValidRte c.ips rte.toRipRte).length =
          n + ((rte :: pre).filter fun rte => isValidRte c.ips rte.toRipRte).length := by
      intro pre
      rw [List.filter_cons]
      split_ifs
      · rw [List.length_cons, Nat.add_right_comm, Nat.add_assoc]
      · rfl
    constructor
    · rintro ⟨hn, hl⟩ pre rte' post heq
      cases pre with
      | nil => simpa using hn
      | cons rte'' pre =>
        obtain ⟨rfl, rfl⟩ := List.cons.inj heq
        rw [← hcount]
        exact hl pre rte' post rfl
    · intro hl
      refine ⟨by simpa using hl [] rte l rfl, fun pre rte' post heq => ?_⟩
      rw [hcount]
      exact hl (rte :: pre) rte' post (by rw [heq, List.cons_append])

/-- The entries of visits that stay. -/
def kept (l : List (ℕ × Option RipEntry)) : List (ℕ × RipEntry) :=
  l.filterMap fun v => (v.2.filter fun rte => isValidRte c.ips rte.toRipRte).map (v.1, ·)

variable {entries : List (ℕ × RipEntry)}

theorem Filling.visit_none (hd : Filling d entries) (g : ℕ) : c.visit d (g, none) = .ok d := by
  rw [visit, RespData.allocPacket, hd.pkt]
  rfl

theorem Filling.visit_some (hd : Filling d entries) (hroom : entries.length ≤ 24) (g : ℕ)
    (rte : RipEntry) :
    ∃ d', c.visit d (g, some rte) = .ok d' ∧ Filling d' (entries ++ c.kept [(g, some rte)]) := by
  refine ⟨d.putEntry (isValidRte c.ips rte.toRipRte) g rte, ?_, ?_⟩
  · rw [visit, RespData.allocPacket, hd.pkt]
    rfl
  · have hle := hd.inPacket
    have hreached : max d.reached
        (ripHeaderSize + ripEntrySize * entries.length + ripEntrySize) ≤ RIP_MAX_PKTLEN := by
      refine max_le hle ?_
      rw [ripHeaderSize, ripEntrySize, RIP_MAX_PKTLEN]
      omega
    rw [RespData.putEntry, hd.pkt]
    dsimp only [Option.getD_some]
    cases hvalid : isValidRte c.ips rte.toRipRte with
    | false =>
      have hkept : c.kept [(g, some rte)] = [] := by simp [kept, hvalid]
      rw [hkept, List.append_nil]
      exact ⟨rfl, hd.sent, hreached, hd.length⟩
    | true =>
      have hkept : c.kept [(g, some rte)] = [(g, rte)] := by simp [kept, hvalid]
      have hfull : ¬ripHeaderSize + RIP_MAX_PKTLEN ≤
          ripHeaderSize + ripEntrySize * (entries ++ [(g, rte)]).length := by
        rw [List.length_append, List.length_singleton, ripHeaderSize, ripEntrySize,
          RIP_MAX_PKTLEN]
        omega
      rw [hkept, if_pos rfl, if_neg hfull]
      refine ⟨rfl, hd.sent, hreached, ?_⟩
      rw [List.length_append, List.length_singleton]
      exact Nat.succ_le_succ hroom

/-- A twenty-sixth entry is written beyond the end. -/
theorem Filling.visit_beyond (hd : Filling d entries) (hroom : 24 < entries.length) (g : ℕ)
    (rte : RipEntry) : RIP_MAX_PKTLEN < (outcome (c.visit d (g, some rte))).2.reached := by
  have hreached : RIP_MAX_PKTLEN < max d.reached
      (ripHeaderSize + ripEntrySize * entries.length + ripEntrySize) := by
    refine lt_of_lt_of_le ?_ (le_max_right _ _)
    rw [ripHeaderSize, ripEntrySize, RIP_MAX_PKTLEN]
    omega
  rw [visit, RespData.allocPacket, hd.pkt]
  dsimp only [Except.bind, Option.elim_some, outcome]
  rw [RespData.putEntry, hd.pkt]
  dsimp only [Option.getD_some]
  split_ifs <;> exact hreached

/-- While there is room the entries stay in one packet. -/
theorem Filling.visits (hd : Filling d entries) {l : List (ℕ × Option RipEntry)}
    (hroom : c.Room entries.length (l.filterMap Prod.snd)) :
    ∃ d', l.foldlM c.visit d = .ok d' ∧ Filling d' (entries ++ c.kept l) := by
  induction l generalizing d entries with
  | nil => exact ⟨d, rfl, by simpa [kept] using hd⟩
  | cons v l ih =>
    obtain ⟨g, rte⟩ := v
    cases rte with
    | none =>
      obtain ⟨d', hd', hfill⟩ := ih hd hroom
      refine ⟨d', ?_, hfill⟩
      rw [List.foldlM_cons, hd.visit_none]
      exact hd'
    | some rte =>
      obtain ⟨hlen, hrest⟩ := hroom
      obtain ⟨d₁, hvisit, hd₁⟩ := hd.visit_some c hlen g rte
      have hroom₁ : c.Room (entries ++ c.kept [(g, some rte)]).length
          (l.filterMap Prod.snd) := by
        convert hrest using 1
        cases hvalid : isValidRte c.ips rte.toRipRte <;> simp [kept, hvalid]
      obtain ⟨d', hd', hfill⟩ := ih hd₁ hroom₁
      refine ⟨d', ?_, ?_⟩
      · rw [List.foldlM_cons, hvisit]
        exact hd'
      · have hsplit : c.kept ((g, some rte) :: l) = c.kept [(g, some rte)] ++ c.kept l := by
          rw [kept, kept, kept, ← List.filterMap_append]
          rfl
        rwa [hsplit, ← List.append_assoc]

/-- Without room some entry is written beyond the end. -/
theorem Filling.visits_beyond (hd : Filling d entries) {l : List (ℕ × Option RipEntry)}
    (hroom : ¬c.Room entries.length (l.filterMap Prod.snd)) :
    RIP_MAX_PKTLEN < (outcome (l.foldlM c.visit d)).2.reached := by
  induction l generalizing d entries with
  | nil => exact absurd trivial hroom
  | cons v l ih =>
    obtain ⟨g, rte⟩ := v
    rw [List.foldlM_cons]
    cases rte with
    | none =>
      rw [hd.visit_none]
      exact ih hd hroom
    | some rte =>
      by_cases hlen : entries.length ≤ 24
      · obtain ⟨d₁, hvisit, hd₁⟩ := hd.visit_some c hlen g rte
        rw [hvisit]
        refine ih hd₁ fun hrest => hroom ⟨hlen, ?_⟩
        convert hrest using 1
        cases hvalid : isValidRte c.ips rte.toRipRte <;> simp [kept, hvalid]
      · have hbeyond := hd.visit_beyond c (Nat.lt_of_not_le hlen) g rte
        cases hv : c.visit d (g, some rte) with
        | error d' =>
          rw [hv] at hbeyond
          exact hbeyond
        | ok d' =>
          rw [hv] at hbeyond
          exact hbeyond.trans_le (c.reached_le_visits l d')

/-! ## The entries of a route -/

/-- The entries of a route that stay in a packet. -/
def held (r : RouteAt) : List (ℕ × RipEntry) :=
  if c.Reached r ∧ c.Passes r ∧ c.Valid r r.ip then
    (r.gate, c.announce r r.ip) ::
      if r.kind = .virtual ∧ c.Valid r (c.virtualAddress r.route) then
        [(r.gate, c.announce r (c.virtualAddress r.route))] else []
  else []

theorem kept_entry (g : ℕ) (address : IpAddress) (l : List (ℕ × Option RipEntry)) :
    c.kept ((g, some (c.announce r address)) :: l) =
      if c.Valid r address then (g, c.announce r address) :: c.kept l else c.kept l := by
  by_cases hvalid : c.Valid r address
  · have hv : isValidRte c.ips (c.announce r address).toRipRte = true := hvalid
    rw [if_pos hvalid]
    simp [kept, hv]
  · have hv : ¬isValidRte c.ips (c.announce r address).toRipRte = true := hvalid
    rw [if_neg hvalid]
    simp [kept, hv]

theorem kept_visits (r : RouteAt) : c.kept (c.visits r) = c.held r := by
  by_cases hreached : c.Reached r
  · by_cases hpasses : c.Passes r
    · rw [visits, if_neg (fun h => h.2 hpasses), tries, if_pos ⟨hreached, hpasses⟩, List.map_cons,
        kept_entry, held]
      by_cases hvalid : c.Valid r r.ip
      · have hheld : c.Reached r ∧ c.Passes r ∧ c.Valid r r.ip := ⟨hreached, hpasses, hvalid⟩
        rw [if_pos hvalid, if_pos hheld]
        by_cases hkind : r.kind = .virtual
        · have htwo : c.Valid r r.ip ∧ r.kind = .virtual := ⟨hvalid, hkind⟩
          rw [if_pos htwo, List.map_singleton, kept_entry]
          simp only [hkind, true_and]
          rfl
        · have hone : ¬(c.Valid r r.ip ∧ r.kind = .virtual) := fun h => hkind h.2
          have hone' : ¬(r.kind = .virtual ∧ c.Valid r (c.virtualAddress r.route)) :=
            fun h => hkind h.1
          rw [if_neg hone, if_neg hone']
          rfl
      · have hone : ¬(c.Valid r r.ip ∧ r.kind = .virtual) := fun h => hvalid h.1
        have hheld : ¬(c.Reached r ∧ c.Passes r ∧ c.Valid r r.ip) := fun h => hvalid h.2.2
        rw [if_neg hvalid, if_neg hone, if_neg hheld]
        rfl
    · rw [visits, if_pos ⟨hreached, hpasses⟩, held, if_neg (fun h => hpasses h.2.1)]
      rfl
  · rw [c.visits_eq_nil hreached, held, if_neg (fun h => hreached h.1)]
    rfl

theorem announce_inj {address address' : IpAddress}
    (heq : c.announce r address = c.announce r address') : address = address' :=
  congrArg (fun e : RipEntry => e.netAddr) heq

/-- A route is sent as it is to be sent just when it is not virtual or like the first one. -/
theorem held_perm_iff (hgate : r.kind ≠ .virtual → some r.gate ≠ r.route.virtual.head?) :
    (c.held r).Perm (c.advertised r) ↔ (r.kind = .virtual → c.AsFirst r) := by
  rw [held, advertised]
  by_cases hp : c.Passes r ∧ c.Valid r r.ip
  swap
  · rw [if_neg (fun h => hp h.2), if_neg (fun h => hp h.2)]
    exact iff_of_true (List.Perm.refl _) fun _ hpasses hvalid => absurd ⟨hpasses, hvalid⟩ hp
  by_cases hkind : r.kind = .virtual
  swap
  · have hreach : c.Reached r ↔ Connected r (c.gates r.gate).address := by
      rw [Reached, Connected]
      simp [hkind, hgate hkind]
    simp only [hreach, hp, and_self, and_true, hkind, false_and, if_false]
    exact iff_of_true (List.Perm.refl _) fun h => h.elim
  simp only [hp, hkind, true_and, and_true, true_imp_iff, AsFirst]
  by_cases hreach : c.Reached r
  swap
  · by_cases hconn : Connected r (c.gates r.gate).address
    · simp [hreach, hconn]
    · simp [hreach, hconn]
  by_cases hconn : Connected r (c.gates r.gate).address
  swap
  · simp [hreach, hconn]
  simp only [hreach, hconn, if_true, List.perm_cons]
  by_cases hfirst : c.Valid r (c.virtualAddress r.route)
  · by_cases hown : c.Valid r (c.gates r.gate).address
    · simp only [hfirst, hown, if_true, List.singleton_perm_singleton, Prod.mk.injEq, true_and,
        not_true_eq_false, and_false, or_false, true_imp_iff]
      exact ⟨fun heq => c.announce_inj heq, fun heq => by rw [heq]⟩
    · have hne : c.virtualAddress r.route ≠ (c.gates r.gate).address := by
        intro heq
        rw [heq] at hfirst
        exact hown hfirst
      simp [hfirst, hown, hne]
  · by_cases hown : c.Valid r (c.gates r.gate).address
    · have hne : c.virtualAddress r.route ≠ (c.gates r.gate).address := by
        intro heq
        rw [heq] at hfirst
        exact hfirst hown
      simp [hfirst, hown, hne]
    · simp [hfirst, hown]

/-- Lists made of pieces with different keys have the same elements just when the pieces have. -/
theorem perm_flatMap_iff {κ ι α : Type} [DecidableEq ι] {l : List κ} {f f' : κ → List (ι × α)}
    (key : κ → ι) (hnodup : (l.map key).Nodup) (hf : ∀ k, ∀ x ∈ f k, x.1 = key k)
    (hf' : ∀ k, ∀ x ∈ f' k, x.1 = key k) :
    (l.flatMap f).Perm (l.flatMap f') ↔ ∀ k ∈ l, (f k).Perm (f' k) := by
  have hpiece : ∀ (g : κ → List (ι × α)), (∀ k, ∀ x ∈ g k, x.1 = key k) → ∀ k ∈ l,
      (l.flatMap g).filter (fun x => x.1 = key k) = g k := by
    intro g hg
    induction l with
    | nil => exact fun k hk => absurd hk List.not_mem_nil
    | cons k₀ l ih =>
      rw [List.map_cons, List.nodup_cons] at hnodup
      have hother : ∀ k, key k ∉ l.map key →
          (l.flatMap g).filter (fun x => x.1 = key k) = [] := by
        intro k hk
        rw [List.filter_eq_nil_iff]
        intro x hx
        obtain ⟨k', hk', hx⟩ := List.mem_flatMap.1 hx
        rw [decide_eq_true_eq, hg k' x hx]
        exact fun heq => hk (heq ▸ List.mem_map_of_mem hk')
      have hsame : ∀ k, (g k).filter (fun x => x.1 = key k) = g k := by
        intro k
        rw [List.filter_eq_self]
        exact fun x hx => decide_eq_true (hg k x hx)
      intro k hk
      rw [List.flatMap_cons, List.filter_append]
      obtain rfl | hk := List.mem_cons.1 hk
      · rw [hsame, hother k hnodup.1, List.append_nil]
      · have hnone : (g k₀).filter (fun x => x.1 = key k) = [] := by
          rw [List.filter_eq_nil_iff]
          intro x hx
          rw [decide_eq_true_eq, hg k₀ x hx]
          exact fun heq => hnodup.1 (heq ▸ List.mem_map_of_mem hk)
        rw [hnone, ih hnodup.2 k hk, List.nil_append]
  constructor
  · intro hperm k hk
    have := hperm.filter fun x => x.1 = key k
    rwa [hpiece f hf k hk, hpiece f' hf' k hk] at this
  · exact fun hall => List.Perm.flatMap_left l hall

/-! ## The whole table -/

theorem kept_table : c.kept ((routesOf h root).flatMap c.visits) =
    (routesOf h root).flatMap c.held := by
  rw [kept, List.filterMap_flatMap]
  exact List.flatMap_congr fun r _ => c.kept_visits r

theorem filterMap_visits (r : RouteAt) : (c.visits r).filterMap Prod.snd = c.tries r := by
  rw [visits]
  split_ifs with h
  · rw [tries, if_neg (fun h' => h.2 h'.2)]
    rfl
  · rw [List.filterMap_map]
    exact List.filterMap_some

theorem filterMap_table : ((routesOf h root).flatMap c.visits).filterMap Prod.snd =
    (routesOf h root).flatMap c.tries := by
  rw [List.filterMap_flatMap]
  exact List.flatMap_congr fun r _ => c.filterMap_visits r

theorem visits_ne_nil (hreached : c.Reached r) : c.visits r ≠ [] := by
  rw [visits, tries]
  by_cases hpasses : c.Passes r
  · simp [hreached, hpasses]
  · simp [hreached, hpasses]

theorem fst_of_mem_held {x : ℕ × RipEntry} (hx : x ∈ c.held r) :
    ∃ address, x = (r.gate, c.announce r address) := by
  rw [held] at hx
  split_ifs at hx with _ htwo
  · obtain rfl | hx := List.mem_cons.1 hx
    · exact ⟨_, rfl⟩
    · exact ⟨_, List.mem_singleton.1 hx⟩
  · exact ⟨_, List.mem_singleton.1 hx⟩
  · exact absurd hx List.not_mem_nil

theorem fst_of_mem_advertised {x : ℕ × RipEntry} (hx : x ∈ c.advertised r) : x.1 = r.gate := by
  rw [advertised] at hx
  split_ifs at hx
  · obtain rfl | hx := List.mem_cons.1 hx
    · rfl
    · rw [List.mem_singleton.1 hx]
  · rw [List.mem_singleton.1 hx]
  · exact absurd hx List.not_mem_nil

/-- The place of a route in the table. -/
theorem Apart.head_ne (hapart : Apart h root) (hr : r ∈ routesOf h root)
    (hkind : r.kind ≠ .virtual) : some r.gate ≠ r.route.virtual.head? := by
  obtain ⟨n, hn, hr⟩ := List.mem_flatMap.1 hr
  cases hdata : n.2.data with
  | none =>
    rw [hdata] at hr
    exact absurd hr List.not_mem_nil
  | some route =>
    rw [hdata, Option.elim_some] at hr
    obtain ⟨kind, -, hr⟩ := List.mem_flatMap.1 hr
    obtain ⟨g, hg, rfl⟩ := List.mem_map.1 hr
    intro heq
    have hvirtual : g ∈ route.list .virtual := List.mem_of_head? heq.symm
    exact hkind ((hapart.separate hn hdata).kind_eq hg hvirtual)

theorem finish_sent (hd : Filling d entries) :
    none ∉ (finish d).sent ∧ sentEntries (finish d) = entries ∧
      (finish d).reached = d.reached := by
  rw [finish, hd.pkt]
  cases entries with
  | nil => exact ⟨by simp [hd.sent], by simp [sentEntries, hd.sent], rfl⟩
  | cons e entries => exact ⟨by simp [hd.sent], by simp [sentEntries, hd.sent], rfl⟩

theorem finish_reached (d : RespData) : (finish d).reached = d.reached := by
  rw [finish]
  split <;> rfl

/-- A response is as it is to be just when it fits. -/
theorem assembled_iff (hapart : Apart h root) :
    c.Assembled h root (finish (c.walked h root)) ↔ c.Fits h root := by
  by_cases hreached : ∃ r ∈ routesOf h root, c.Reached r
  swap
  · have hnil : (routesOf h root).flatMap c.visits = [] := by
      rw [List.flatMap_eq_nil_iff]
      exact fun r hr => c.visits_eq_nil fun h => hreached ⟨r, hr, h⟩
    refine iff_of_false (fun hsent => hsent.notNull ?_) fun hfits => hreached hfits.reached
    rw [walked, hnil]
    exact List.mem_singleton_self none
  have hne : (routesOf h root).flatMap c.visits ≠ [] := by
    obtain ⟨r, hr, hreached⟩ := hreached
    exact fun hnil => c.visits_ne_nil hreached (List.flatMap_eq_nil_iff.1 hnil r hr)
  obtain ⟨v, l, hl⟩ := List.exists_cons_of_ne_nil hne
  by_cases hmemory : c.memory 0 = true
  swap
  · refine iff_of_false (fun hsent => hsent.notNull ?_) fun hfits => hmemory hfits.memory
    have hvisit : c.visit ⟨none, 0, [], 0⟩ v = .error ⟨none, 1, [], 0⟩ := by
      rw [visit, RespData.allocPacket]
      dsimp only
      rw [if_neg hmemory]
      rfl
    rw [walked, hl, List.foldlM_cons, hvisit]
    exact List.mem_singleton_self none
  have hwalked : c.walked h root = (outcome (((routesOf h root).flatMap c.visits).foldlM c.visit
      ⟨some [], 1, [], ripHeaderSize⟩)).2 := by
    have hvisit : c.visit ⟨none, 0, [], 0⟩ v = c.visit ⟨some [], 1, [], ripHeaderSize⟩ v := by
      rw [visit, visit, RespData.allocPacket, RespData.allocPacket]
      dsimp only
      rw [if_pos hmemory, Nat.zero_max]
    rw [walked, hl, List.foldlM_cons, List.foldlM_cons, hvisit]
  have hstart : Filling ⟨some [], 1, [], ripHeaderSize⟩ [] :=
    ⟨rfl, rfl, by decide, Nat.zero_le _⟩
  have hroom : c.Room 0 ((routesOf h root).flatMap c.tries) ↔
      ∀ pre rte post, (routesOf h root).flatMap c.tries = pre ++ rte :: post →
        (pre.filter fun rte => isValidRte c.ips rte.toRipRte).length ≤ 24 := by
    rw [room_iff]
    simp only [Nat.zero_add]
  by_cases hr : c.Room 0 ((routesOf h root).flatMap c.tries)
  swap
  · have hbeyond := hstart.visits_beyond c (l := (routesOf h root).flatMap c.visits)
      (by rwa [filterMap_table])
    rw [← hwalked] at hbeyond
    refine iff_of_false (fun hsent => ?_) fun hfits => hr (hroom.2 hfits.room)
    have hle := hsent.inPacket
    rw [finish_reached] at hle
    exact absurd hle (Nat.not_le.2 hbeyond)
  obtain ⟨d, hd, hfill⟩ := hstart.visits c (l := (routesOf h root).flatMap c.visits)
    (by rwa [filterMap_table])
  rw [List.nil_append, kept_table] at hfill
  rw [hd] at hwalked
  obtain ⟨hnull, hentries, hend⟩ := finish_sent hfill
  have hperm : ((routesOf h root).flatMap c.held).Perm ((routesOf h root).flatMap c.advertised) ↔
      ∀ r ∈ routesOf h root, r.kind = .virtual → c.AsFirst r := by
    rw [perm_flatMap_iff RouteAt.gate hapart
      (fun r x hx => by obtain ⟨address, rfl⟩ := c.fst_of_mem_held hx; rfl)
      (fun r x hx => c.fst_of_mem_advertised hx)]
    exact forall₂_congr fun r hr => c.held_perm_iff (hapart.head_ne hr)
  rw [hwalked, outcome]
  constructor
  · intro hsent
    refine ⟨hmemory, hreached, hroom.1 hr, hperm.1 ?_⟩
    have := hsent.entries
    rwa [hentries] at this
  · intro hfits
    refine ⟨?_, hnull, ?_, fun e he hsrc => ?_⟩
    · rw [hend]
      exact hfill.inPacket
    · rw [hentries]
      exact hperm.2 hfits.asFirst
    · rw [hentries] at he
      obtain ⟨r, -, he⟩ := List.mem_flatMap.1 he
      obtain ⟨address, rfl⟩ := c.fst_of_mem_held he
      simp only [announce, buildRte, if_pos hsrc, RIP_MAX_METRIC]

/-- `RIP_send_resp_ipif` returns, and the response is as it is to be just when it fits. -/
theorem response_assembled (hl : RadixLinks root h) (hapart : Apart h root) :
    ∃ turns, ∀ fuel ≥ turns, ∃ d, c.sendRespIpif fuel root h = some d ∧
      (c.Assembled h root d ↔ c.Fits h root) := by
  obtain ⟨turns, hturns⟩ := c.sendRespIpif_eq hl hapart
  exact ⟨turns, fun fuel hfuel => ⟨_, hturns fuel hfuel, c.assembled_iff hapart⟩⟩

end RespCall

/-- A table with some default routes. -/
def defaultRoutes (gates : List ℕ) : RadixHeap IpRoute :=
  (ipradixInit 0).setData 0 (some ⟨[], [], gates⟩)

/-- A call for a table where all routes are alike. -/
def plainCall : RespCall where
  ipif := 1
  ripVers := RIP_V2
  onlyChangeF := false
  gates := fun _ => ⟨0x0A000001, RTF_UP, 1, 0, false, none⟩
  ips := ⟨fun _ _ => false, fun _ => false⟩
  memory := fun _ => true

theorem defaultRoutes_links (gates : List ℕ) : RadixLinks 0 (defaultRoutes gates) :=
  init_links.setData

theorem routesOf_defaultRoutes (gates : List ℕ) :
    routesOf (defaultRoutes gates) 0 =
      gates.map (RouteAt.mk 0 0 ⟨[], [], gates⟩ .indirect) := by
  have hnode : defaultRoutes gates 0 =
      some ⟨0, 0, none, fun _ => none, some ⟨[], [], gates⟩⟩ := rfl
  rw [routesOf, nodesOf, preorder_succ hnode]
  simp [routesAt, IpRoute.list]

theorem defaultRoutes_apart {gates : List ℕ} (hnodup : gates.Nodup) :
    RespCall.Apart (defaultRoutes gates) 0 := by
  rw [RespCall.Apart, routesOf_defaultRoutes, List.map_map]
  exact (List.map_id gates).symm ▸ hnodup

theorem response_assembled_one :
    ∃ turns, ∀ fuel ≥ turns, ∃ d, plainCall.sendRespIpif fuel 0 (defaultRoutes [1]) = some d ∧
      (plainCall.Assembled (defaultRoutes [1]) 0 d ↔ plainCall.Fits (defaultRoutes [1]) 0) :=
  plainCall.response_assembled (defaultRoutes_links [1])
    (defaultRoutes_apart (List.nodup_singleton 1))

/-- Twenty-six default routes do not fit. -/
theorem default_routes_beyond :
    ∃ turns, ∀ fuel ≥ turns, ∃ d,
      plainCall.sendRespIpif fuel 0 (defaultRoutes (List.range 26)) = some d ∧
      ¬plainCall.Assembled (defaultRoutes (List.range 26)) 0 d := by
  have hapart := defaultRoutes_apart (List.nodup_range (n := 26))
  obtain ⟨turns, hturns⟩ := plainCall.sendRespIpif_eq (defaultRoutes_links _) hapart
  refine ⟨turns, fun fuel hfuel => ⟨_, hturns fuel hfuel, fun hsent => ?_⟩⟩
  have hroom := ((plainCall.assembled_iff hapart).1 hsent).room
  rw [routesOf_defaultRoutes] at hroom
  have hle := hroom (List.replicate 25 (buildRte 0 0 0 0 1 RIP_V2)) (buildRte 0 0 0 0 1 RIP_V2) []
    rfl
  revert hle
  decide

end Rtcs
end Mqx
