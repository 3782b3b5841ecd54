import Mqx.Rtcs.Route
import Mathlib.Data.BitVec

/-!
# The route timers of RIP

Model of `rip.c`: what the entries of a response and the events do to the routing table. The
event queue is that of the TCP/IP task. The table is the list of its nodes, found by network and
mask; of the routes at a node only the indirect ones are changed by RIP, so the others are
reduced to whether there are any.
-/

namespace Mqx.Rtcs

open Function (update)

abbrev IpAddress := BitVec 32

def RTF_UP : BitVec 32 := 1
def RTF_STATIC : BitVec 32 := 2

def RIP_MIN_METRIC : ℕ := 1
def RIP_MAX_METRIC : ℕ := 16
def RIP_TIMEOUT_DEL : ℕ := 180 * 1000
def RIP_TIMEOUT_GC : ℕ := 120 * 1000
def RIP_ALMOST_EXPIRED_TIME : ℕ := RIP_TIMEOUT_DEL / 5
def IPPORT_RIP : ℕ := 520

/-- `RIP.TIMEOUT.EVENT`. -/
inductive RipEvent where
  | expireRte
  | expireGc
deriving DecidableEq

/-- `IP_ROUTE_INDIRECT` with its `RIP_INFO`. `learned` is no field of it: the router whose
response the route has been made or changed by. -/
structure Gate where
  gateway : IpAddress
  isDirect : Bool
  flags : BitVec 32
  metric : ℕ
  ripMetric : ℕ
  event : Option RipEvent
  learned : Option IpAddress

/-- A node of the routing table. `connected` says that it has a direct or virtual route. -/
structure RouteNode where
  ip : IpAddress
  mask : IpAddress
  connected : Bool
  indirect : List ℕ
deriving DecidableEq

/-- What an event belongs to. -/
inductive EventOwner where
  | gate (g : ℕ)
  | trigUpd
  | periodic
deriving DecidableEq

/-- The events in the order of the queue, each with its `TIME`. -/
abbrev EventQueue := List (EventOwner × ℕ)

/-- The routing table, the event queue, `RT_CHANGED_F`, and whether the triggered update timer
is running. -/
structure RipState where
  nodes : List RouteNode
  gates : ℕ → Gate
  events : EventQueue
  rtChanged : Bool
  trigRunning : Bool

/-- What an advertisement of the routes meets: whether it was sent on all interfaces, and the
random time until the next one. -/
structure Advertisement where
  sent : Bool
  time : ℕ

/-- An entry of a response. -/
structure RipRte where
  family : ℕ
  netAddr : IpAddress
  netMask : IpAddress
  nextHop : IpAddress
  metric : ℕ

/-- What an entry meets when a route is made for it: the block from the partition, and whether
the table has memory for its node. -/
structure RipMemory where
  gate : Option ℕ
  node : Bool

/-- A RIP response and the interface it came from. -/
structure RipResponse where
  source : IpAddress
  sourcePort : ℕ
  ifSrc : ℕ
  version : ℕ
  entries : List (RipRte × RipMemory)

/-- The addresses of the interfaces: `IP_is_direct` and `IP_is_local`. -/
structure IpAddresses where
  isDirect : ℕ → IpAddress → Bool
  isLocal : IpAddress → Bool

/-! ## The event queue -/

/-- `TCPIP_Event_add`. -/
def eventAdd (o : EventOwner) (time : ℕ) : EventQueue → EventQueue
  | [] => [(o, time)]
  | (p, t) :: q =>
    if time < t then (o, time) :: (p, t - time) :: q else (p, t) :: eventAdd o (time - t) q

/-- The event behind one that is taken out makes up for its time. -/
def eventCatchUp (time : ℕ) : EventQueue → EventQueue
  | [] => []
  | (p, t) :: q => (p, (t + time) % 2 ^ 32) :: q

/-- `TCPIP_Event_cancel`. -/
def eventCancel (o : EventOwner) : EventQueue → EventQueue
  | [] => []
  | (p, t) :: q => if p = o then eventCatchUp t q else (p, t) :: eventCancel o q

/-- The loop of `TCPIP_Event_expire` from `time` on. -/
def eventExpire (o : EventOwner) (time : ℕ) : EventQueue → ℕ
  | [] => 0
  | (p, t) :: q =>
    if p = o then (time + t) % 2 ^ 32 else eventExpire o ((time + t) % 2 ^ 32) q

namespace RipState

def setGate (s : RipState) (g : ℕ) (f : Gate → Gate) : RipState :=
  { s with gates := update s.gates g (f (s.gates g)) }

/-- A change of the indirect routes of a node. -/
def mapIndirect (s : RipState) (ip mask : IpAddress) (f : List ℕ → List ℕ) : RipState :=
  { s with nodes := s.nodes.map fun n =>
      if n.ip = ip ∧ n.mask = mask then { n with indirect := f n.indirect } else n }

/-! ## The routing table -/

def findNode (s : RipState) (ip mask : IpAddress) : Option RouteNode :=
  s.nodes.find? fun n => n.ip = ip ∧ n.mask = mask

end RipState

/-- What `ROUTE_get` finds: a direct or virtual route, all of which are static, or an indirect
one. -/
inductive FoundRoute where
  | none
  | connected
  | gate (g : ℕ)
deriving DecidableEq

def RouteNode.first (n : RouteNode) : FoundRoute :=
  if n.connected then .connected
  else match n.indirect with
    | [] => .none
    | g :: _ => .gate g

namespace RipState

/-- `ROUTE_get`. -/
def routeGet (s : RipState) (netaddr netmask : IpAddress) : FoundRoute :=
  match s.findNode netaddr netmask with
  | none => .none
  | some n => n.first

/-- `ROUTE_insert`, where `memory` is for a new node. -/
def routeInsert (s : RipState) (g : ℕ) (network netmask : IpAddress) (memory : Bool) :
    RipState :=
  if (s.findNode (network &&& netmask) netmask).isSome then
    s.mapIndirect (network &&& netmask) netmask (insertSecond g)
  else if memory then
    { s with nodes := s.nodes ++ [⟨network &&& netmask, netmask, false, [g]⟩] }
  else s

/-- `RIP_remove_rt`. -/
def removeRt (s : RipState) (g : ℕ) : RipState :=
  { s with events := eventCancel (.gate g) s.events }.setGate g fun r =>
    { r with ripMetric := 0, event := none }

/-- `IP_route_delete_indirect_test`. -/
def deleteTest (s : RipState) (gateway : IpAddress) (flags : BitVec 32) (metric : ℕ) (g : ℕ) :
    Bool :=
  (s.gates g).gateway = gateway ∧ (s.gates g).flags &&& flags = flags ∧
    (s.gates g).metric = metric

/-- `IP_route_remove_indirect`. -/
def routeRemoveIndirect (s : RipState) (gateway netmask network : IpAddress) (flags : BitVec 32)
    (metric : ℕ) : RipState :=
  match s.findNode (network &&& netmask) netmask with
  | none => s
  | some n =>
    if gateway = 0 then
      ((n.indirect.tail ++ n.indirect.take 1).foldl removeRt s).mapIndirect
        (network &&& netmask) netmask fun _ => []
    else
      match deleteRoute (s.deleteTest gateway flags metric) n.indirect with
      | (none, _) => s
      | (some g, rest) =>
        (s.removeRt g).mapIndirect (network &&& netmask) netmask fun _ => rest

/-- `ROUTE_remove`. -/
def routeRemove (s : RipState) (g : ℕ) : RipState :=
  let s := s.removeRt g
  match s.nodes.find? fun n => n.indirect.contains g with
  | none => s
  | some n =>
    s.routeRemoveIndirect (s.gates g).gateway n.mask n.ip (s.gates g).flags (s.gates g).metric

/-! ## Responses -/

/-- `RIP_send_resp`: the flag is taken back when the routes have been sent. -/
def sendResp (s : RipState) (u : Advertisement) : RipState :=
  if u.sent then { s with rtChanged := false } else s

/-- `RIP_trig_upd`. -/
def trigUpd (s : RipState) (u : Advertisement) : RipState :=
  if s.trigRunning then s
  else
    let s := s.sendResp u
    { s with trigRunning := true, events := eventAdd .trigUpd u.time s.events }

/-- `RIP_init_timer`. -/
def initTimer (s : RipState) (g : ℕ) (metric : ℕ) : RipState :=
  let s := s.setGate g fun r =>
    { r with event := some (if metric < RIP_MAX_METRIC then .expireRte else .expireGc) }
  let time := if metric < RIP_MAX_METRIC then RIP_TIMEOUT_DEL else RIP_TIMEOUT_GC
  { s with events := eventAdd (.gate g) time s.events }

end RipState

/-- `RIP_cpu_metric`. -/
def cpuMetric (oldmetric : ℕ) : ℕ := min ((1 + oldmetric) % 2 ^ 32) RIP_MAX_METRIC

/-- `IN_DEFAULT_NET`. -/
def inDefaultNet (a : IpAddress) : IpAddress :=
  if a = 0 then 0
  else if a &&& 0x80000000 = 0 then 0xFF000000
  else if a &&& 0xC0000000 = 0x80000000 then 0xFFFF0000
  else 0xFFFFFF00

/-- The network mask of an entry. -/
def entryMask (version : ℕ) (rte : RipRte) : IpAddress :=
  if version = 2 then rte.netMask else inDefaultNet rte.netAddr

/-- The gateway that an entry names. -/
def entryGateway (ips : IpAddresses) (p : RipResponse) (rte : RipRte) : IpAddress :=
  if p.version = 2 ∧ rte.nextHop ≠ 0 ∧ ips.isDirect p.ifSrc rte.nextHop = true then rte.nextHop
  else p.source

/-- `RIP_is_valid_rte`. -/
def isValidRte (ips : IpAddresses) (rte : RipRte) : Bool :=
  !(rte.family ≠ 2 || (RIP_MAX_METRIC < rte.metric || rte.metric < RIP_MIN_METRIC) ||
    (rte.netAddr &&& 0xF0000000 = 0xE0000000 || rte.netAddr &&& 0xF0000000 = 0xF0000000) ||
    rte.netAddr &&& 0xFF000000 = 0x7F000000 ||
    (rte.nextHop ≠ 0 && ips.isLocal rte.nextHop))

/-- `RIP_is_valid_resp`. -/
def isValidResp (ips : IpAddresses) (p : RipResponse) : Bool :=
  p.sourcePort = IPPORT_RIP && ips.isDirect p.ifSrc p.source && !ips.isLocal p.source

namespace RipState

variable (ips : IpAddresses) (p : RipResponse)

/-- `RIP_adopt_rt`. -/
def adoptRt (s : RipState) (g : ℕ) (rte : RipRte) (metric : ℕ) : RipState :=
  (s.setGate g fun r => { r with
    gateway := entryGateway ips p rte
    flags := if metric < RIP_MAX_METRIC then r.flags ||| RTF_UP else r.flags &&& ~~~RTF_UP
    ripMetric := metric
    learned := some p.source }).initTimer g metric

/-- `RIP_update_rt`. -/
def updateRt (s : RipState) (g : ℕ) (rte : RipRte) : RipState :=
  let nmetric := cpuMetric rte.metric
  let gate := s.gates g
  if gate.flags &&& RTF_STATIC ≠ 0 then s
  else if p.source ≠ gate.gateway ∧ gate.ripMetric < nmetric then s
  else if p.source ≠ gate.gateway ∧ nmetric = gate.ripMetric ∧
      (RIP_MAX_METRIC ≤ nmetric ∨
        RIP_ALMOST_EXPIRED_TIME < eventExpire (.gate g) 0 s.events) then s
  else
    let s := { s with events := eventCancel (.gate g) s.events }
    if p.source = gate.gateway ∧ gate.ripMetric = nmetric then
      if nmetric < RIP_MAX_METRIC then s.initTimer g gate.ripMetric else s
    else
      { s.adoptRt ips p g rte nmetric with rtChanged := true }

/-- `RIP_create_rt`; `_mem_zero` clears the new entry. -/
def createRt (s : RipState) (rte : RipRte) (m : RipMemory) : RipState :=
  match m.gate with
  | none => s
  | some g =>
    let s := s.setGate g fun _ => ⟨0, false, 0, 0, 0, none, none⟩
    let s := s.adoptRt ips p g rte (cpuMetric rte.metric)
    { s.routeInsert g rte.netAddr (entryMask p.version rte) m.node with rtChanged := true }

/-- One round of the loop of `RIP_process_inresp`. -/
def processEntry (s : RipState) (e : RipRte × RipMemory) : RipState :=
  if isValidRte ips e.1 then
    match s.routeGet e.1.netAddr (entryMask p.version e.1) with
    | .none => s.createRt ips p e.1 e.2
    | .connected => s
    | .gate g => s.updateRt ips p g e.1
  else s

/-- `RIP_process_inresp`. -/
def processInresp (s : RipState) (u : Advertisement) : RipState :=
  if isValidResp ips p then
    let s := p.entries.foldl (processEntry ips p) s
    if s.rtChanged then s.trigUpd u else s
  else s

/-! ## Events -/

/-- What the head of the event queue does when it is triggered, `rest` being what is left of the
time: `RIP_expire_rte`, `RIP_expire_gc`, `RIP_expire_trig_upd` and `RIP_expire_periodic`. -/
def trigger (s : RipState) (u : Advertisement) (rest : ℕ) : EventOwner → RipState
  | .gate g =>
    match (s.gates g).event with
    | none => s
    | some .expireRte =>
      let s := s.setGate g fun r =>
        { r with flags := r.flags &&& ~~~RTF_UP, ripMetric := RIP_MAX_METRIC }
      let s := { s with rtChanged := true }.trigUpd u
      let s := s.setGate g fun r => { r with event := some .expireGc }
      { s with events := eventAdd (.gate g) ((RIP_TIMEOUT_GC + rest) % 2 ^ 32) s.events }
    | some .expireGc => if (s.gates g).isDirect then s else s.routeRemove g
  | .trigUpd =>
    if s.rtChanged then
      let s := s.sendResp u
      { s with events := eventAdd .trigUpd ((u.time + rest) % 2 ^ 32) s.events }
    else { s with trigRunning := false }
  | .periodic =>
    let s := s.sendResp u
    { s with events := eventAdd .periodic ((u.time + rest) % 2 ^ 32) s.events }

/-- The loop of `TCPIP_Event_time`, with an advertisement for each round. -/
def eventTime : List Advertisement → ℕ → RipState → RipState
  | [], _, s => s
  | u :: us, time, s =>
    match s.events with
    | [] => s
    | (o, t) :: q =>
      if time < t then { s with events := (o, t - time) :: q }
      else eventTime us (time - t) ({ s with events := q }.trigger u (time - t) o)

end RipState

end Mqx.Rtcs
