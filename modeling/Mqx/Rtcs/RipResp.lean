import Mqx.Rtcs.IpradixWalk
import Mqx.Rtcs.Rip

/-!
# The responses of RIP

Model of `RIP_send_resp_ipif`. A circular list of routes is the list of its elements from the
head on, each given by its address. A packet is the list of its entries behind the header, each
with the route it was built for; `curs` stands behind the last one. The destination of a packet is
left out, as is what `RIP_send_pkt` does with it.
-/

namespace Mqx
namespace Rtcs

def RTF_REDIRECT : BitVec 32 := 4
def RIP_AF_INET : ℕ := 2
def RIP_V2 : ℕ := 2
def RIP_MAX_PKTLEN : ℕ := 512

/-- `sizeof(RIP_HEADER)` and `sizeof(RIP_ENTRY)`. -/
def ripHeaderSize : ℕ := 4
def ripEntrySize : ℕ := 20

/-- What direct, virtual and indirect routes have at the same places. `address` is `ADDRESS` or
`GATEWAY`. -/
structure RespGate where
  address : IpAddress
  flags : BitVec 32
  metric : ℕ
  rtTag : BitVec 32
  changedF : Bool
  ipIfSrc : Option ℕ

/-- `IP_ROUTE`. -/
structure IpRoute where
  direct : List ℕ
  virtual : List ℕ
  indirect : List ℕ

/-- An entry of a packet. -/
structure RipEntry extends RipRte where
  rtTag : BitVec 16

/-- What `RIP_send_resp_ipif` is called with, the routes, the addresses of the interfaces, and
whether a packet is allocated, for one allocation after the other. -/
structure RespCall where
  ipif : ℕ
  ripVers : ℕ
  onlyChangeF : Bool
  gates : ℕ → RespGate
  ips : IpAddresses
  memory : ℕ → Bool

/-- `RIP_send_resp_ipif_struct`, with the number of allocations, the packets that `RIP_send_pkt`
was called with, where `none` is NULL, and how far any packet was written. -/
structure RespData where
  pkt : Option (List (ℕ × RipEntry))
  allocs : ℕ
  sent : List (Option (List (ℕ × RipEntry)))
  reached : ℕ

/-- `RIP_build_rte`. -/
def buildRte (rt_tag : BitVec 32) (net_addr net_mask next_hop : IpAddress) (metric rip_vers : ℕ) :
    RipEntry where
  family := RIP_AF_INET
  netAddr := net_addr
  netMask := if rip_vers = RIP_V2 then net_mask else 0
  nextHop := if rip_vers = RIP_V2 then next_hop else 0
  metric := metric
  rtTag := if rip_vers = RIP_V2 then rt_tag.setWidth 16 else 0

namespace RespData

/-- The allocation of a packet, and its header. -/
def allocPacket (memory : ℕ → Bool) (d : RespData) : Except RespData RespData :=
  match d.pkt with
  | some _ => .ok d
  | none =>
    if memory d.allocs then
      .ok ⟨some [], d.allocs + 1, d.sent, max d.reached ripHeaderSize⟩
    else .error ⟨none, d.allocs + 1, d.sent, d.reached⟩

/-- The place of an entry is written; a valid one stays, and a packet that is full is sent. -/
def putEntry (valid : Bool) (g : ℕ) (rte : RipEntry) (d : RespData) : RespData :=
  let entries := d.pkt.getD []
  let reached := max d.reached (ripHeaderSize + ripEntrySize * entries.length + ripEntrySize)
  if valid then
    let entries := entries ++ [(g, rte)]
    if ripHeaderSize + RIP_MAX_PKTLEN ≤ ripHeaderSize + ripEntrySize * entries.length then
      ⟨none, d.allocs, d.sent ++ [some entries], reached⟩
    else ⟨some entries, d.allocs, d.sent, reached⟩
  else ⟨some entries, d.allocs, d.sent, reached⟩

end RespData

namespace RespCall

variable (c : RespCall)

/-- `route->VIRTUAL->ADDRESS`. -/
def virtualAddress (route : IpRoute) : IpAddress :=
  route.virtual.head?.elim 0 fun g => (c.gates g).address

/-- The entry for a route of a list that starts with `first`. -/
def respRte (route : IpRoute) (node_mask : IpAddress) (first : Option ℕ) (g : ℕ)
    (address : IpAddress) : RipEntry :=
  let gate := c.gates g
  let metric := if gate.ipIfSrc = some c.ipif then RIP_MAX_METRIC else gate.metric
  let nexthop :=
    if c.ips.isDirect c.ipif gate.address ∧ first = route.indirect.head? then gate.address else 0
  buildRte gate.rtTag address node_mask nexthop metric c.ripVers

/-- The loop over `vcount` in `RIP_send_resp_ipif_test`, for a route of a list that starts with
`first`. An error is a return out of the loops. -/
def vcountLoop (route : IpRoute) (node_ip node_mask : IpAddress) (first : Option ℕ) (g : ℕ) :
    ℕ → RespData → Except RespData RespData
  | 0, d => .ok d
  | vcount + 1, d =>
    if some g = route.virtual.head? ∧ c.virtualAddress route = 0 then .ok d
    else
      (d.allocPacket c.memory).bind fun d =>
        if c.onlyChangeF ∧ ¬(c.gates g).changedF then .ok d
        else if (c.gates g).flags &&& RTF_REDIRECT ≠ 0 then .ok d
        else
          let address := if vcount + 1 = 1 then c.virtualAddress route else node_ip
          let rte := c.respRte route node_mask first g address
          let valid := isValidRte c.ips rte.toRipRte
          let d := d.putEntry valid g rte
          if valid ∧ first = route.virtual.head? then
            vcountLoop route node_ip node_mask first g vcount d
          else .ok d

/-- The loop over the routes of a list. -/
def listLoop (route : IpRoute) (node_ip node_mask : IpAddress) (list : List ℕ) (d : RespData) :
    Except RespData RespData :=
  list.foldlM (fun d g => c.vcountLoop route node_ip node_mask list.head? g 2 d) d

/-- `rstart`. -/
def rstart (route : IpRoute) (node_ip node_mask : IpAddress) : List (List ℕ) :=
  if ~~~node_mask = 0 then
    if route.virtual ≠ [] ∧ node_ip ≠ c.virtualAddress route then [[], route.virtual, []] else []
  else [route.direct, route.virtual, route.indirect]

/-- Whether the walk is stopped. -/
def outcome : Except RespData RespData → Bool × RespData
  | .ok d => (false, d)
  | .error d => (true, d)

/-- `RIP_send_resp_ipif_test`. The error that it returns for lack of memory is not `FALSE`. -/
def sendRespIpifTest (node_ip node_mask : IpAddress) (node_data : Option IpRoute) (d : RespData) :
    Bool × RespData :=
  match node_data with
  | none => (false, d)
  | some route =>
    outcome ((c.rstart route node_ip node_mask).foldlM
      (fun d list => c.listLoop route node_ip node_mask list d) d)

/-- The end of `RIP_send_resp_ipif`. Without a packet the difference of `curs` and `pkt` is not
the size of the header. -/
def finish (d : RespData) : RespData :=
  match d.pkt with
  | some [] => ⟨none, d.allocs, d.sent, d.reached⟩
  | some entries => ⟨none, d.allocs, d.sent ++ [some entries], d.reached⟩
  | none => ⟨none, d.allocs, d.sent ++ [none], d.reached⟩

/-- `RIP_send_resp_ipif`, with a bound on the turns of the walk. -/
def sendRespIpif (fuel root : ℕ) (h : RadixHeap IpRoute) : Option RespData :=
  (ipradixWalk fuel root c.sendRespIpifTest ⟨none, 0, [], 0⟩ h).map finish

end RespCall

/-! ## The routes of a table -/

inductive RouteKind
  | direct
  | virtual
  | indirect
deriving DecidableEq

/-- A route with its kind and its node. -/
structure RouteAt where
  ip : IpAddress
  mask : IpAddress
  route : IpRoute
  kind : RouteKind
  gate : ℕ

/-- The list that a kind of routes is in. -/
def IpRoute.list (route : IpRoute) : RouteKind → List ℕ
  | .direct => route.direct
  | .virtual => route.virtual
  | .indirect => route.indirect

def routesAt (ip mask : IpAddress) (route : IpRoute) : List RouteAt :=
  [.direct, .virtual, .indirect].flatMap fun kind =>
    (route.list kind).map (RouteAt.mk ip mask route kind)

/-- The routes of a table in the order of the walk. -/
def routesOf (h : RadixHeap IpRoute) (root : ℕ) : List RouteAt :=
  (nodesOf h root).flatMap fun n => n.2.data.elim [] (routesAt n.2.ip n.2.mask)

/-! ## What is to be sent -/

namespace RespCall

variable (c : RespCall)

/-- The route has changed if only such routes are asked for, and is not from a redirect. -/
def Passes (r : RouteAt) : Prop :=
  (c.onlyChangeF = true → (c.gates r.gate).changedF = true) ∧
    (c.gates r.gate).flags &&& RTF_REDIRECT = 0

instance (r : RouteAt) : Decidable (c.Passes r) :=
  inferInstanceAs (Decidable ((c.onlyChangeF = true → (c.gates r.gate).changedF = true) ∧
    (c.gates r.gate).flags &&& RTF_REDIRECT = 0))

/-- A route to a host is to a connected network only if it is virtual, with an address that is not
the host's. A virtual route without an address is a tunnel. -/
def Connected (r : RouteAt) (address : IpAddress) : Prop :=
  (r.kind = .virtual → address ≠ 0) ∧ (~~~r.mask = 0 → r.kind = .virtual ∧ r.ip ≠ address)

instance (r : RouteAt) (address : IpAddress) : Decidable (Connected r address) :=
  inferInstanceAs (Decidable
    ((r.kind = .virtual → address ≠ 0) ∧ (~~~r.mask = 0 → r.kind = .virtual ∧ r.ip ≠ address)))

/-- The entry by which a route announces an address. A route that was learned on the interface
is announced as unreachable. -/
def announce (r : RouteAt) (address : IpAddress) : RipEntry :=
  let gate := c.gates r.gate
  buildRte gate.rtTag address r.mask
    (if c.ips.isDirect c.ipif gate.address ∧ r.kind = .indirect then gate.address else 0)
    (if gate.ipIfSrc = some c.ipif then RIP_MAX_METRIC else gate.metric) c.ripVers

def Valid (r : RouteAt) (address : IpAddress) : Prop :=
  isValidRte c.ips (c.announce r address).toRipRte = true

instance (r : RouteAt) (address : IpAddress) : Decidable (c.Valid r address) :=
  inferInstanceAs (Decidable (isValidRte c.ips (c.announce r address).toRipRte = true))

/-- What is to be sent for a route: its network, and the address of a virtual route. -/
def advertised (r : RouteAt) : List (ℕ × RipEntry) :=
  let address := (c.gates r.gate).address
  if Connected r address ∧ c.Passes r ∧ c.Valid r r.ip then
    (r.gate, c.announce r r.ip) ::
      if r.kind = .virtual ∧ c.Valid r address then [(r.gate, c.announce r address)] else []
  else []

/-- The entries of the packets that were sent. -/
def sentEntries (d : RespData) : List (ℕ × RipEntry) :=
  d.sent.flatMap fun pkt => pkt.getD []

/-- No packet was written beyond its end, none was missing, and the entries sent are those of the
routes that are to be sent, each once, with metric 16 for the ones learned on the interface. -/
structure Assembled (h : RadixHeap IpRoute) (root : ℕ) (d : RespData) : Prop where
  inPacket : d.reached ≤ RIP_MAX_PKTLEN
  notNull : none ∉ d.sent
  entries : (sentEntries d).Perm ((routesOf h root).flatMap c.advertised)
  metric : ∀ e ∈ sentEntries d, (c.gates e.1).ipIfSrc = some c.ipif → e.2.metric = 16

/-! ## The routes that the walk comes to -/

/-- The walk asks for the address of the first virtual route of a node, and takes only that one
for a tunnel. -/
def Reached (r : RouteAt) : Prop :=
  (~~~r.mask = 0 → r.kind = .virtual ∧ r.ip ≠ c.virtualAddress r.route) ∧
    ¬(some r.gate = r.route.virtual.head? ∧ c.virtualAddress r.route = 0)

instance (r : RouteAt) : Decidable (c.Reached r) :=
  inferInstanceAs (Decidable
    ((~~~r.mask = 0 → r.kind = .virtual ∧ r.ip ≠ c.virtualAddress r.route) ∧
      ¬(some r.gate = r.route.virtual.head? ∧ c.virtualAddress r.route = 0)))

/-- The entries that are built for a route. -/
def tries (r : RouteAt) : List RipEntry :=
  if c.Reached r ∧ c.Passes r then
    c.announce r r.ip ::
      if c.Valid r r.ip ∧ r.kind = .virtual then [c.announce r (c.virtualAddress r.route)] else []
  else []

/-- What the walk does for a route: `none` where it builds no entry. -/
def visits (r : RouteAt) : List (ℕ × Option RipEntry) :=
  if c.Reached r ∧ ¬c.Passes r then [(r.gate, none)]
  else (c.tries r).map fun rte => (r.gate, some rte)

/-- One of `visits`. -/
def visit (d : RespData) (v : ℕ × Option RipEntry) : Except RespData RespData :=
  (d.allocPacket c.memory).bind fun d =>
    .ok (v.2.elim d fun rte => d.putEntry (isValidRte c.ips rte.toRipRte) v.1 rte)

/-- The address of the first virtual route does as well as that of the route itself. -/
def AsFirst (r : RouteAt) : Prop :=
  let address := (c.gates r.gate).address
  c.Passes r → c.Valid r r.ip →
    (c.Reached r ↔ Connected r address) ∧
    (c.Reached r → c.virtualAddress r.route = address ∨
      ¬c.Valid r (c.virtualAddress r.route) ∧ ¬c.Valid r address)

/-- There is memory for a packet, the walk comes to a route, at most twenty-four entries are
valid before any that is built, and each virtual route is like the first one of its node. -/
structure Fits (h : RadixHeap IpRoute) (root : ℕ) : Prop where
  memory : c.memory 0 = true
  reached : ∃ r ∈ routesOf h root, c.Reached r
  room : ∀ pre rte post, (routesOf h root).flatMap c.tries = pre ++ rte :: post →
    (pre.filter fun rte => isValidRte c.ips rte.toRipRte).length ≤ 24
  asFirst : ∀ r ∈ routesOf h root, r.kind = .virtual → c.AsFirst r

end RespCall

end Rtcs
end Mqx
