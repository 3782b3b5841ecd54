import Mathlib.Data.Finset.Card
import Mathlib.Data.UInt
import Mqx.Rtcs.TcpPrv

/-!
# The life of a TCB

Creation, opening, cloning, accepting, closing and release of the TCBs: what
`TCP_Process_packet`, `TCP_Process_signal` and the requests of the socket layer do to the
number of connections and to the lists of TCBs. Sequence numbers, addresses and memory are
seen through the verdicts the code takes on them, which are part of an event.
-/

namespace Mqx
namespace Rtcs

/-- What the accounting uses of a TCB. `opened` is history: an open of the TCB has
succeeded, or the TCB is a clone. -/
structure Tcb where
  valid : Bool
  state : TcpState
  finToSend : Bool
  tcpsecure : Bool
  socket : UInt32
  listenTcb : UInt32
  connPending : UInt16
  spawnTime : UInt32
  opened : Bool
deriving DecidableEq

/-- The states of a stream socket. -/
inductive SockState where
  | ground
  | bound
  | listening
  | connected
deriving DecidableEq

structure StreamSocket where
  tcb : UInt32
  state : SockState
deriving DecidableEq

/-- A request in `OPENS`: an open or an accept that is not answered yet. -/
structure OpenRequest where
  tcb : UInt32
  socket : UInt32
deriving DecidableEq

/-- `RTCSCFG_TCP_MAX_HALF_OPEN` and `RTCSCFG_TCP_MAX_CONNECTIONS`, 0 for none. -/
structure TcpLimits where
  maxHalfOpen : ℕ
  maxConnections : UInt32

/-- `TCP_CFG_STRUCT` with the TCBs in memory, of which `live` are allocated, and the sockets.
A pointer is an address, 0 for NULL. -/
structure TcpCfg where
  tcbs : UInt32 → Tcb
  live : Finset UInt32
  sockets : UInt32 → StreamSocket
  tcbHead : List UInt32
  connCount : UInt32
  nosockTcb : List UInt32
  halfOpenCount : ℕ
  halfOpenList : ℕ → UInt32
  opens : List OpenRequest

/-- Where `TCP_Process_open` comes to an end: at a bad or taken address or without a buffer,
without the memory for the clock samples, without a route, or at its regular end. -/
inductive OpenResult where
  | refused
  | noClock
  | hostUnreach
  | opened
deriving DecidableEq

namespace TcpCfg

def setTcb (s : TcpCfg) (a : UInt32) (t : Tcb) : TcpCfg :=
  { s with tcbs := Function.update s.tcbs a t }

def setState (s : TcpCfg) (a : UInt32) (st : TcpState) : TcpCfg :=
  s.setTcb a { s.tcbs a with state := st }

def setSocket (s : TcpCfg) (k : UInt32) (v : StreamSocket) : TcpCfg :=
  { s with sockets := Function.update s.sockets k v }

/-! ## Lists of TCBs -/

/-- `TCB_HALF_OPEN_DROP`. -/
def halfOpenDrop (s : TcpCfg) (a : UInt32) : TcpCfg :=
  match (List.range s.halfOpenCount).find? fun i => s.halfOpenList i = a with
  | none => s
  | some i =>
    { s with
      halfOpenCount := s.halfOpenCount - 1
      halfOpenList := Function.update s.halfOpenList i (s.halfOpenList (s.halfOpenCount - 1)) }

/-- A TCB of `NOSOCK_TCB` gets its socket. The call that waits for it makes the socket a
connected one. -/
def attach (s : TcpCfg) (a k : UInt32) : TcpCfg :=
  { (s.setTcb a { s.tcbs a with socket := k, listenTcb := 0 }).setSocket k ⟨a, .connected⟩ with
    nosockTcb := s.nosockTcb.erase a }

/-- A connection without a request that waits for it is left for a later accept. -/
def addPending (s : TcpCfg) (a : UInt32) : TcpCfg :=
  s.setTcb a { s.tcbs a with connPending := (s.tcbs a).connPending + 1 }

/-- `TCP_Return_open`. -/
def returnOpen (s : TcpCfg) (a : UInt32) : TcpCfg :=
  match s.opens.find? fun r => r.tcb = a ∨ r.tcb = (s.tcbs a).listenTcb with
  | some r =>
    let s := { s with opens := s.opens.erase r }
    if a ∈ s.nosockTcb then s.attach a r.socket else s
  | none =>
    if (s.tcbs a).state = .closed then s
    else if (s.tcbs a).listenTcb = 0 then s.addPending a
    else (s.addPending a).addPending (s.tcbs a).listenTcb

/-- `TCP_Close_TCB`, where `failed` says that the error code is not `RTCS_OK`. -/
def closeTcb (s : TcpCfg) (a : UInt32) (failed : Bool) : TcpCfg :=
  let notSynRecv := (s.tcbs a).state ≠ .synReceived
  let s := s.setState a .closed
  if failed ∧ notSynRecv then s.returnOpen a else s

/-- `TCP_Free_TCB`. The block keeps its contents until it is allocated again. -/
def freeTcb (s : TcpCfg) (a : UInt32) : TcpCfg :=
  let t := s.tcbs a
  let s := { s with tcbHead := s.tcbHead.erase a }
  let s := if t.socket ≠ 0 then s.setSocket t.socket { s.sockets t.socket with tcb := 0 } else s
  let s := s.setTcb a { t with valid := false }
  let s := { s with connCount := s.connCount - 1 }
  let s := s.halfOpenDrop a
  { s with live := s.live.erase a }

/-- The search through `NOSOCK_TCB` in `TCP_Process_release`, from position `pos`: `a` itself
ends it, a child of `a` is closed and released. -/
def releaseLoop (release : TcpCfg → UInt32 → TcpCfg) (a : UInt32) : ℕ → ℕ → TcpCfg → TcpCfg
  | 0, _, s => s
  | n + 1, pos, s =>
    match s.nosockTcb[pos]? with
    | none => s
    | some b =>
      if b = a then { s with nosockTcb := s.nosockTcb.eraseIdx pos }
      else if (s.tcbs b).listenTcb = a then
        let s := { s with nosockTcb := s.nosockTcb.eraseIdx pos }
        releaseLoop release a n pos (release (s.closeTcb b false) b)
      else releaseLoop release a n (pos + 1) s

/-- `TCP_Process_release` to a depth of recursion. -/
def releaseDepth : ℕ → TcpCfg → UInt32 → TcpCfg
  | 0, s, a => s.freeTcb a
  | d + 1, s, a => (releaseLoop (releaseDepth d) a s.nosockTcb.length 0 s).freeTcb a

/-- `TCP_Process_release`. Each level of the recursion has taken a TCB from the list. -/
def processRelease (s : TcpCfg) (a : UInt32) : TcpCfg := releaseDepth (s.nosockTcb.length + 1) s a

/-- `TCP_Clone_tcb` and `TCP_Start_receiving`, with the memory `block` for the clone. -/
def cloneTcb (s : TcpCfg) (lim : TcpLimits) (a block now : UInt32) : TcpCfg :=
  let clone : Tcb :=
    { s.tcbs a with
      socket := 0, listenTcb := a, connPending := 0, spawnTime := now, state := .synReceived,
      opened := true }
  let s := { s.setTcb block clone with
    live := insert block s.live
    tcbHead := block :: s.tcbHead
    connCount := s.connCount + 1
    nosockTcb := block :: s.nosockTcb }
  if lim.maxHalfOpen ≠ 0 then
    { s with
      halfOpenList := Function.update s.halfOpenList s.halfOpenCount block
      halfOpenCount := s.halfOpenCount + 1 }
  else s

/-- The first loop of `TCP_half_open_TCB_close` from index `i`, with the number of removed
TCBs. A removal puts another TCB at the same index. -/
def halfOpenLoop (now : UInt32) : ℕ → ℕ → ℕ → TcpCfg → TcpCfg × ℕ
  | 0, _, removed, s => (s, removed)
  | n + 1, i, removed, s =>
    if i < s.halfOpenCount then
      let a := s.halfOpenList i
      if now - (s.tcbs a).spawnTime > 3000 then
        halfOpenLoop now n i (removed + 1) ((s.closeTcb a true).processRelease a)
      else halfOpenLoop now n (i + 1) removed s
    else (s, removed)

/-- `TCP_half_open_TCB_close` with the random number `rand`. -/
def halfOpenTcbClose (s : TcpCfg) (now rand : UInt32) : TcpCfg :=
  let (s, removed) := halfOpenLoop now s.halfOpenCount 0 0 s
  if removed = 0 ∧ s.halfOpenCount ≠ 0 then
    let a := s.halfOpenList (rand.toNat % s.halfOpenCount)
    (s.closeTcb a true).processRelease a
  else s

/-! ## Requests -/

/-- `SOCK_STREAM_socket` with `TCP_Process_create`; `block` is 0 when there is no memory. -/
def processCreate (s : TcpCfg) (k block : UInt32) : TcpCfg :=
  if block = 0 then s
  else
    let tcb : Tcb :=
      { valid := true, state := .listen, finToSend := false, tcpsecure := false, socket := k
        listenTcb := 0, connPending := 0, spawnTime := 0, opened := false }
    { (s.setTcb block tcb).setSocket k ⟨block, .ground⟩ with live := insert block s.live }

/-- `SOCK_STREAM_bind` with `TCP_Process_bind`; `inUse` says that the port is taken. -/
def processBind (s : TcpCfg) (k : UInt32) (inUse : Bool) : TcpCfg :=
  let a := (s.sockets k).tcb
  if (s.sockets k).state ≠ .ground ∨ a = 0 then s
  else if inUse then s
  else
    { (s.setState a .bound).setSocket k ⟨a, .bound⟩ with tcbHead := a :: s.tcbHead }

/-- `SOCK_STREAM_listen`, and `SOCK_STREAM_connect` for `active`, with `TCP_Process_open`.
The request of a connect has a `SOCKET` that nothing has set. -/
def processOpen (s : TcpCfg) (k : UInt32) (active tcpsecure : Bool) (unset : UInt32)
    (result : OpenResult) : TcpCfg :=
  let a := (s.sockets k).tcb
  if (s.sockets k).state ≠ .bound ∨ a = 0 then s
  else
    let s := { s with connCount := s.connCount + 1 }
    let t := { s.tcbs a with tcpsecure := tcpsecure }
    match result with
    | .refused => s.setTcb a t
    | .noClock => s.setTcb a { t with state := .listen }
    | .hostUnreach => s.setTcb a { t with state := .listen, connPending := 0 }
    | .opened =>
      if active then
        { s.setTcb a { t with state := .synSent, connPending := 0, opened := true } with
          opens := ⟨a, unset⟩ :: s.opens }
      else
        (s.setTcb a { t with state := .listen, connPending := 0, opened := true }).setSocket k
          ⟨a, .listening⟩

/-- `SOCK_STREAM_accept` with `TCP_Process_accept` and the new socket `newsock`. -/
def processAccept (s : TcpCfg) (k newsock : UInt32) : TcpCfg :=
  let a := (s.sockets k).tcb
  if (s.sockets k).state ≠ .listening ∨ a = 0 then s
  else if (s.tcbs a).connPending ≠ 0 then
    let s := s.setTcb a { s.tcbs a with connPending := (s.tcbs a).connPending - 1 }
    match s.nosockTcb.find? fun c => (s.tcbs c).listenTcb = a ∧ (s.tcbs c).connPending ≠ 0 with
    | some c =>
      (s.setTcb c { s.tcbs c with connPending := (s.tcbs c).connPending - 1 }).attach c newsock
    | none => s
  else { s with opens := ⟨a, newsock⟩ :: s.opens }

/-- `TCP_Process_effective_close`. -/
def effectiveClose (s : TcpCfg) (a : UInt32) : TcpCfg :=
  match (s.tcbs a).state with
  | .synReceived | .established => s.setState a .finwait1
  | .closeWait => s.setState a .lastAck
  | _ => s

/-- The socket of a request is freed when the request returns. -/
def dropSocket (s : TcpCfg) (a k : UInt32) : TcpCfg :=
  let s := if (s.tcbs a).valid then s.setTcb a { s.tcbs a with socket := 0 } else s
  s.setSocket k ⟨0, .ground⟩

/-- `TCP_Process_close` for a TCB; `allSent` says that no data are left to send. -/
def processClose (s : TcpCfg) (a : UInt32) (allSent : Bool) : TcpCfg :=
  let t := s.tcbs a
  if !t.valid then s
  else if t.state = .closed then s.processRelease a
  else if t.finToSend then s
  else
    match t.state with
    | .listen | .synSent => (s.closeTcb a false).processRelease a
    | .bound => s.processRelease a
    | .synReceived | .established | .closeWait =>
      let s := s.setTcb a { t with finToSend := true }
      if allSent then s.effectiveClose a else s
    | _ => s

/-- `TCP_Process_abort` for a TCB. -/
def processAbort (s : TcpCfg) (a : UInt32) : TcpCfg :=
  let t := s.tcbs a
  if !t.valid then s
  else
    match t.state with
    | .listen => (s.closeTcb a false).processRelease a
    | .bound | .closed => s.processRelease a
    | _ => (s.closeTcb a true).processRelease a

/-- `RTCS_shutdown` with `SOCK_STREAM_shutdown`. -/
def shutdown (s : TcpCfg) (k : UInt32) (abort allSent : Bool) : TcpCfg :=
  let a := (s.sockets k).tcb
  if a = 0 then s.setSocket k ⟨0, .ground⟩
  else ((if abort then s.processAbort a else s.processClose a allSent)).dropSocket a k

/-! ## Segments and timers -/

end TcpCfg

/-- A segment with the verdicts on its numbers: whether it is acceptable, whether it starts
at `rcvnxt`, whether the state takes its acknowledgment, whether it acknowledges the SYN, and
the state that its ACK and FIN lead to. `block` is the memory for a clone. -/
structure SegmentEvent where
  rst : Bool
  syn : Bool
  ack : Bool
  acceptable : Bool
  exact : Bool
  ackOkay : Bool
  synAcked : Bool
  progress : TcpState
  now : UInt32
  rand : UInt32
  block : UInt32

/-- The states of a connection that both ends have opened. -/
def TcpState.synchronized : TcpState → Bool
  | .established | .finwait1 | .finwait2 | .closeWait | .closing | .lastAck | .timeWait => true
  | _ => false

namespace TcpCfg

/-- The ACK and the FIN of a segment move between the synchronized states. -/
def progress (s : TcpCfg) (a : UInt32) (st : TcpState) : TcpCfg :=
  if st.synchronized then s.setState a st else s

/-- A SYN for a listener may first make room by closing half-open connections. -/
def makeRoom (s : TcpCfg) (lim : TcpLimits) (g : SegmentEvent) : TcpCfg :=
  if lim.maxHalfOpen ≠ 0 ∧ (lim.maxHalfOpen ≤ s.halfOpenCount ∨
      lim.maxConnections ≠ 0 ∧ lim.maxConnections ≤ s.connCount) then
    s.halfOpenTcbClose g.now g.rand
  else s

/-- `TCP_Process_packet` in LISTEN. -/
def processListen (s : TcpCfg) (lim : TcpLimits) (a : UInt32) (g : SegmentEvent) : TcpCfg :=
  if g.rst ∨ g.ack ∨ ¬ g.syn then s
  else
    let s := s.makeRoom lim g
    if lim.maxConnections ≠ 0 ∧ lim.maxConnections ≤ s.connCount then s
    else if g.block = 0 then s
    else s.cloneTcb lim a g.block g.now

/-- `TCP_Process_packet` in SYN_SENT. -/
def processSynSent (s : TcpCfg) (a : UInt32) (g : SegmentEvent) : TcpCfg :=
  if g.ack ∧ ¬ g.ackOkay then s
  else if g.rst then
    if g.ack then (s.closeTcb a true).processRelease a else s
  else if g.syn then
    let s := s.setState a .synReceived
    if g.synAcked then ((s.setState a .established).returnOpen a).progress a g.progress else s
  else s

/-- The ACK of an acceptable segment. -/
def processAck (s : TcpCfg) (a : UInt32) (g : SegmentEvent) : TcpCfg :=
  match (s.tcbs a).state with
  | .synReceived =>
    if g.ackOkay then
      (((s.setState a .established).halfOpenDrop a).returnOpen a).progress a g.progress
    else s
  | .established | .finwait1 | .finwait2 | .closeWait | .closing => s.progress a g.progress
  | .lastAck => if g.ackOkay then (s.closeTcb a false).processRelease a else s
  | _ => s

/-- `TCP_Process_packet` in the other states. -/
def processDefault (s : TcpCfg) (a : UInt32) (g : SegmentEvent) : TcpCfg :=
  if ¬ g.acceptable then s
  else if g.rst then
    if (s.tcbs a).tcpsecure ∧ ¬ g.exact then s else (s.closeTcb a true).processRelease a
  else if g.syn then
    if (s.tcbs a).tcpsecure then s
    else
      let s := s.closeTcb a true
      if (s.tcbs a).socket = 0 then s.processRelease a else s
  else if g.ack then s.processAck a g
  else s

/-- `TCP_Service_packet` for a segment that belongs to the TCB `a`. -/
def servicePacket (s : TcpCfg) (lim : TcpLimits) (a : UInt32) (g : SegmentEvent) : TcpCfg :=
  match (s.tcbs a).state with
  | .closed | .timeWait => s
  | .listen => s.processListen lim a g
  | .synSent => s.processSynSent a g
  | _ => s.processDefault a g

/-- All data are sent on a connection that is to be closed. -/
def dataSent (s : TcpCfg) (a : UInt32) : TcpCfg :=
  if (s.tcbs a).finToSend then s.effectiveClose a else s

/-- The (re)transmission timer of `TCP_Process_signal` in TIME_WAIT. -/
def timeWaitExpired (s : TcpCfg) (a : UInt32) : TcpCfg :=
  if (s.tcbs a).valid ∧ (s.tcbs a).state = .timeWait then (s.closeTcb a false).processRelease a
  else s

/-- The send timer of `TCP_Process_signal` at the hard timeout. It runs only when something
has been sent. -/
def sendTimeout (s : TcpCfg) (a : UInt32) : TcpCfg :=
  if (s.tcbs a).valid ∧ (s.tcbs a).state ∉ [.listen, .bound, .closed] then
    let s := s.closeTcb a true
    if (s.tcbs a).socket = 0 then s.processRelease a else s
  else s

end TcpCfg

/-! ## Runs -/

/-- A request of the socket layer, a segment for a TCB or a timer. -/
inductive TcbEvent where
  | create (k block : UInt32)
  | bind (k : UInt32) (inUse : Bool)
  | openTcb (k : UInt32) (active tcpsecure : Bool) (unset : UInt32) (result : OpenResult)
  | accept (k newsock : UInt32)
  | shutdown (k : UInt32) (abort allSent : Bool)
  | segment (a : UInt32) (g : SegmentEvent)
  | dataSent (a : UInt32)
  | timeWaitExpired (a : UInt32)
  | sendTimeout (a : UInt32)

def TcpCfg.step (lim : TcpLimits) (s : TcpCfg) : TcbEvent → TcpCfg
  | .create k block => s.processCreate k block
  | .bind k inUse => s.processBind k inUse
  | .openTcb k active tcpsecure unset result => s.processOpen k active tcpsecure unset result
  | .accept k newsock => s.processAccept k newsock
  | .shutdown k abort allSent => s.shutdown k abort allSent
  | .segment a g => s.servicePacket lim a g
  | .dataSent a => s.dataSent a
  | .timeWaitExpired a => s.timeWaitExpired a
  | .sendTimeout a => s.sendTimeout a

/-- What an event can be: sockets are not NULL, allocated memory is not in use, a segment
finds its TCB in the list of TCBs and a timer belongs to a TCB. -/
def TcbEvent.Possible (lim : TcpLimits) (s : TcpCfg) : TcbEvent → Prop
  | .create k block => k ≠ 0 ∧ block ∉ s.live
  | .bind k _ => k ≠ 0
  | .openTcb k _ _ _ _ => k ≠ 0
  | .accept k newsock => k ≠ 0 ∧ newsock ≠ 0
  | .shutdown k _ _ => k ≠ 0
  | .segment a g => a ∈ s.tcbHead ∧ g.block ∉ (s.makeRoom lim g).live
  | .dataSent a => a ∈ s.live
  | .timeWaitExpired a => a ∈ s.live
  | .sendTimeout a => a ∈ s.live

instance (lim : TcpLimits) (s : TcpCfg) : (e : TcbEvent) → Decidable (e.Possible lim s)
  | .create k block => inferInstanceAs (Decidable (k ≠ 0 ∧ block ∉ s.live))
  | .bind k _ => inferInstanceAs (Decidable (k ≠ 0))
  | .openTcb k _ _ _ _ => inferInstanceAs (Decidable (k ≠ 0))
  | .accept k newsock => inferInstanceAs (Decidable (k ≠ 0 ∧ newsock ≠ 0))
  | .shutdown k _ _ => inferInstanceAs (Decidable (k ≠ 0))
  | .segment a g => inferInstanceAs (Decidable (a ∈ s.tcbHead ∧ g.block ∉ (s.makeRoom lim g).live))
  | .dataSent a => inferInstanceAs (Decidable (a ∈ s.live))
  | .timeWaitExpired a => inferInstanceAs (Decidable (a ∈ s.live))
  | .sendTimeout a => inferInstanceAs (Decidable (a ∈ s.live))

/-- `TCP_Init`. -/
def initialTcpCfg (tcbs : UInt32 → Tcb) (sockets : UInt32 → StreamSocket)
    (halfOpenList : ℕ → UInt32) : TcpCfg where
  tcbs := tcbs
  live := ∅
  sockets := fun k => { sockets k with tcb := 0 }
  tcbHead := []
  connCount := 0
  nosockTcb := []
  halfOpenCount := 0
  halfOpenList := halfOpenList
  opens := []

/-- The states of the TCP layer after events that all meet `P`. -/
inductive TcpReached (lim : TcpLimits) (P : TcpCfg → TcbEvent → Prop) : TcpCfg → Prop
  | init (tcbs : UInt32 → Tcb) (sockets : UInt32 → StreamSocket) (halfOpenList : ℕ → UInt32) :
    TcpReached lim P (initialTcpCfg tcbs sockets halfOpenList)
  | step {s : TcpCfg} {e : TcbEvent} (hs : TcpReached lim P s) (he : e.Possible lim s) (hP : P s e) :
    TcpReached lim P (s.step lim e)

/-- The TCBs in memory that were opened or cloned. -/
def TcpCfg.connections (s : TcpCfg) : Finset UInt32 := s.live.filter fun a => (s.tcbs a).opened

end Rtcs
end Mqx
