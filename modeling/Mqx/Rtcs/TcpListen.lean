import Mathlib.Data.UInt
import Mqx.Rtcs.TcpPrv

/-!
# Segments for a listening TCB

`TCP_Process_packet` and `TCP6_Process_packet` read the options of a segment before they
look at the state of the TCB. In LISTEN that TCB is the listener, which every connection
is cloned from. The two functions differ in their addresses, in the function that finds
the MTU of a path and in the size of the headers only.
-/

namespace Mqx
namespace Rtcs

/-- What the two network layers have of their own: the unspecified address, `IP_MTU` or
`IP6_MTU`, and the size of their header together with the one of TCP. -/
structure NetworkLayer (α : Type) where
  addrAny : α
  mtu : α → α → UInt32
  headSize : UInt32

/-- The parameters of a connection that a listener hands on. -/
structure ListenTcb (α : Type) where
  localHost : α
  remoteHost : α
  remotePort : UInt16
  rcvmss : UInt16
  sndmss : UInt16
  sndmax : UInt16
  rcvmax : UInt32
  rcv2full : UInt32
deriving DecidableEq

/-- A received segment: its bytes from the start of the TCP header, and the addresses of
the packet. The last two say whether the connections are used up and whether the memory for
a clone is missing. -/
structure Arrival (α : Type) where
  bytes : ℕ → UInt8
  source : α
  dest : α
  noConnections : Bool
  noMemory : Bool

/-- What is done with the segment. -/
inductive Answer (α : Type) where
  | drop
  | reset
  | cloned (tcb : ListenTcb α)
deriving DecidableEq

variable {α : Type}

/-- `mqx_ntohs`. -/
def ntohs (bytes : ℕ → UInt8) (i : ℕ) : UInt16 :=
  (bytes i).toUInt16 * 256 + (bytes (i + 1)).toUInt16

def Arrival.flags (p : Arrival α) : UInt16 := ntohs p.bytes 12

def Arrival.sourcePort (p : Arrival α) : UInt16 := ntohs p.bytes 0

/-- Where the data of the segment begin. -/
def Arrival.dataStart (p : Arrival α) : ℕ := ((p.flags &&& 0xF000) >>> 10).toNat

def flagFin (flags : UInt16) : Bool := flags &&& 1 != 0
def flagSyn (flags : UInt16) : Bool := flags &&& 2 != 0
def flagRst (flags : UInt16) : Bool := flags &&& 4 != 0
def flagAck (flags : UInt16) : Bool := flags &&& 16 != 0

/-! ## Options -/

/-- The value of an MSS option, bounded by what the TCB can receive. -/
def boundMss (rcvmss mss : UInt16) : UInt16 := if rcvmss ≠ 0 ∧ mss > rcvmss then rcvmss else mss

/-- The effect of an MSS option. -/
def ListenTcb.setMss (tcb : ListenTcb α) (value : UInt16) : ListenTcb α :=
  let mss := boundMss tcb.rcvmss value
  let tcb := { tcb with sndmss := mss, sndmax := mss }
  if mss.toUInt32 < tcb.rcvmax then
    { tcb with
      rcvmax := mss.toUInt32
      rcv2full := mss.toUInt32 + (mss.toUInt32 >>> 1) + (mss.toUInt32 >>> 2) }
  else tcb

/-- The loop over the options from `opt`, with `false` when the segment is dropped because
of an option without a length. Each round moves on by one byte or more. -/
def processOptions (bytes : ℕ → UInt8) (dataStart : ℕ) : ℕ → ℕ → ListenTcb α → ListenTcb α × Bool
  | 0, _, tcb => (tcb, true)
  | n + 1, opt, tcb =>
    if opt < dataStart then
      if bytes opt = 0 then (tcb, true)
      else if bytes opt = 1 then processOptions bytes dataStart n (opt + 1) tcb
      else if bytes (opt + 1) = 0 then (tcb, false)
      else
        processOptions bytes dataStart n (opt + (bytes (opt + 1)).toNat)
          (if bytes opt = 2 then tcb.setMss (ntohs bytes (opt + 2)) else tcb)
    else (tcb, true)

/-! ## The packet -/

/-- `TCP_Clone_tcb` and what is set in the clone. -/
def cloneTcb [DecidableEq α] (net : NetworkLayer α) (p : Arrival α) (tcb : ListenTcb α) : ListenTcb α :=
  let tcb := if tcb.localHost = net.addrAny then { tcb with localHost := p.dest } else tcb
  let tcb :=
    if tcb.remoteHost = net.addrAny then
      let rcvmss := (net.mtu tcb.localHost p.source - net.headSize).toUInt16
      let sndmss := if tcb.sndmss > rcvmss then rcvmss else tcb.sndmss
      { tcb with remoteHost := p.source, rcvmss := rcvmss, sndmss := sndmss, sndmax := sndmss }
    else tcb
  { tcb with remotePort := p.sourcePort }

/-- The case LISTEN of `TCP_Process_packet`, when the options were `okay`. -/
def answerListen [DecidableEq α] (net : NetworkLayer α) (p : Arrival α) (tcb : ListenTcb α)
    (okay : Bool) : Answer α :=
  if !okay then .drop
  else if flagRst p.flags then .drop
  else if flagAck p.flags then .reset
  else if flagSyn p.flags then
    if p.noConnections || p.noMemory then .drop else .cloned (cloneTcb net p tcb)
  else .drop

/-- `TCP_Process_packet` for a TCB in LISTEN: the listener afterwards and the answer. -/
def processListen [DecidableEq α] (net : NetworkLayer α) (p : Arrival α) (tcb : ListenTcb α) :
    ListenTcb α × Answer α :=
  if (flagSyn p.flags && flagFin p.flags) || p.flags == 1 || p.flags == 0 then (tcb, .drop)
  else
    let r := processOptions p.bytes p.dataStart (p.dataStart - 20) 20 tcb
    (r.1, answerListen net p r.1 r.2)

/-- The listener that `TCP_Process_open` leaves. -/
def openListener [DecidableEq α] (net : NetworkLayer α) (localHost remoteHost : α) (remotePort : UInt16) :
    ListenTcb α :=
  { localHost := localHost
    remoteHost := remoteHost
    remotePort := remotePort
    rcvmss := if remoteHost = net.addrAny then 0
      else (net.mtu localHost remoteHost - net.headSize).toUInt16
    sndmss := 536
    sndmax := 536
    rcvmax := 1
    rcv2full := 1 }

/-- The listener after a sequence of segments. -/
def listenRun [DecidableEq α] (net : NetworkLayer α) (tcb : ListenTcb α) (ps : List (Arrival α)) : ListenTcb α :=
  ps.foldl (fun tcb p => (processListen net p tcb).1) tcb

/-! ## The MSS options of a segment -/

/-- The values of the MSS options that the loop reads. -/
def mssOptions (bytes : ℕ → UInt8) (dataStart : ℕ) : ℕ → ℕ → List UInt16
  | 0, _ => []
  | n + 1, opt =>
    if opt < dataStart then
      if bytes opt = 0 then []
      else if bytes opt = 1 then mssOptions bytes dataStart n (opt + 1)
      else if bytes (opt + 1) = 0 then []
      else if bytes opt = 2 then
        ntohs bytes (opt + 2) :: mssOptions bytes dataStart n (opt + (bytes (opt + 1)).toNat)
      else mssOptions bytes dataStart n (opt + (bytes (opt + 1)).toNat)
    else []

/-- The rounds that are left at the end do nothing. -/
theorem processOptions_rounds {bytes : ℕ → UInt8} {dataStart n opt : ℕ} (h : dataStart ≤ opt + n)
    (tcb : ListenTcb α) :
    processOptions bytes dataStart (n + 1) opt tcb = processOptions bytes dataStart n opt tcb := by
  induction n generalizing opt tcb with
  | zero => simp only [processOptions, if_neg (show ¬opt < dataStart by omega)]
  | succ n ih =>
    conv_lhs => rw [processOptions]
    conv_rhs => rw [processOptions]
    split_ifs with h₁ h₂ h₃ h₄ h₅
    · rfl
    · exact ih (by omega) _
    · rfl
    · have hpos : 0 < (bytes (opt + 1)).toNat :=
        Nat.pos_of_ne_zero fun h0 => h₄ (UInt8.toNat_inj.mp h0)
      exact ih (by omega) _
    · have hpos : 0 < (bytes (opt + 1)).toNat :=
        Nat.pos_of_ne_zero fun h0 => h₄ (UInt8.toNat_inj.mp h0)
      exact ih (by omega) _
    · rfl

theorem processOptions_eq (bytes : ℕ → UInt8) (dataStart n opt : ℕ) (tcb : ListenTcb α) :
    (processOptions bytes dataStart n opt tcb).1 =
      (mssOptions bytes dataStart n opt).foldl ListenTcb.setMss tcb := by
  induction n generalizing opt tcb with
  | zero => rfl
  | succ n ih =>
    rw [processOptions, mssOptions]
    split_ifs with h₁ h₂ h₃ h₄ h₅
    · rfl
    · exact ih _ _
    · rfl
    · rw [ih, List.foldl_cons]
    · exact ih _ _
    · rfl

/-- The values leave the parameters as they are: none is below `rcvmax`, and the last one
is the present size of segments. -/
def KeepsMss (tcb : ListenTcb α) (values : List UInt16) : Prop :=
  (∀ v ∈ values, tcb.rcvmax ≤ (boundMss tcb.rcvmss v).toUInt32) ∧
    ∀ v ∈ values.getLast?,
      boundMss tcb.rcvmss v = tcb.sndmss ∧ boundMss tcb.rcvmss v = tcb.sndmax

theorem keepsMss_nil {tcb : ListenTcb α} : KeepsMss tcb [] := by
  simp [KeepsMss]

theorem keepsMss_singleton {tcb : ListenTcb α} {v : UInt16}
    (hmax : tcb.rcvmax ≤ (boundMss tcb.rcvmss v).toUInt32)
    (hsndmss : boundMss tcb.rcvmss v = tcb.sndmss) (hsndmax : boundMss tcb.rcvmss v = tcb.sndmax) :
    KeepsMss tcb [v] := by
  constructor
  · intro u hu
    obtain rfl := List.mem_singleton.mp hu
    exact hmax
  · intro u hu
    obtain rfl : v = u := by simpa using hu
    exact ⟨hsndmss, hsndmax⟩

theorem setMss_of_le {tcb : ListenTcb α} {v : UInt16}
    (h : tcb.rcvmax ≤ (boundMss tcb.rcvmss v).toUInt32) :
    tcb.setMss v =
      { tcb with sndmss := boundMss tcb.rcvmss v, sndmax := boundMss tcb.rcvmss v } := by
  unfold ListenTcb.setMss
  exact if_neg (UInt32.not_lt.mpr h)

theorem foldl_setMss {values : List UInt16} {tcb : ListenTcb α}
    (h : ∀ v ∈ values, tcb.rcvmax ≤ (boundMss tcb.rcvmss v).toUInt32) :
    values.foldl ListenTcb.setMss tcb =
      match values.getLast? with
      | none => tcb
      | some v => { tcb with sndmss := boundMss tcb.rcvmss v, sndmax := boundMss tcb.rcvmss v } := by
  induction values generalizing tcb with
  | nil => rfl
  | cons v values ih =>
    rw [List.foldl_cons, setMss_of_le (h v List.mem_cons_self), ih, List.getLast?_cons]
    · cases values.getLast? <;> rfl
    · exact fun u hu => h u (List.mem_cons_of_mem v hu)

theorem KeepsMss.foldl_eq {values : List UInt16} {tcb : ListenTcb α} (h : KeepsMss tcb values) :
    values.foldl ListenTcb.setMss tcb = tcb := by
  rw [foldl_setMss h.1]
  cases hlast : values.getLast? with
  | none => rfl
  | some v =>
    obtain ⟨hsndmss, hsndmax⟩ := h.2 v hlast
    rw [hsndmss] at hsndmax
    simp only [hsndmss]
    cases tcb
    simp_all

/-! ## Isolation -/

/-- The values that the segment sets, when its flags are looked at at all. -/
def Arrival.mssValues (p : Arrival α) : List UInt16 :=
  if (flagSyn p.flags && flagFin p.flags) || p.flags == 1 || p.flags == 0 then []
  else mssOptions p.bytes p.dataStart (p.dataStart - 20) 20

section Isolation

variable [DecidableEq α] (net : NetworkLayer α)

/-- The path to the sender of a SYN that gets a clone carries more than headers, where the
listener does not name the remote host itself. -/
def PathFits (tcb : ListenTcb α) (p : Arrival α) : Prop :=
  flagSyn p.flags = true → flagRst p.flags = false → flagAck p.flags = false →
  p.noConnections = false → p.noMemory = false → tcb.remoteHost = net.addrAny →
    (net.mtu (if tcb.localHost = net.addrAny then p.dest else tcb.localHost) p.source -
      net.headSize).toUInt16 ≠ 0

/-- What a segment has to be like for the listener `tcb` to stay isolated. -/
structure Steady (tcb : ListenTcb α) (p : Arrival α) : Prop where
  keeps : KeepsMss tcb p.mssValues
  path : PathFits net tcb p

/-- A segment changes the four parameters of the listener by its MSS options only. -/
theorem processListen_fst (p : Arrival α) (tcb : ListenTcb α) :
    (processListen net p tcb).1 = p.mssValues.foldl ListenTcb.setMss tcb := by
  unfold processListen Arrival.mssValues
  split_ifs with hflags
  · rfl
  · exact processOptions_eq _ _ _ _ _

theorem answerListen_cloned {p : Arrival α} {tcb t : ListenTcb α} {okay : Bool}
    (h : answerListen net p tcb okay = .cloned t) :
    flagSyn p.flags = true ∧ flagRst p.flags = false ∧ flagAck p.flags = false ∧
      p.noConnections = false ∧ p.noMemory = false ∧ t = cloneTcb net p tcb := by
  unfold answerListen at h
  split_ifs at h with hoptions hrst hack hsyn hroom
  injection h with h
  simp only [Bool.or_eq_true, not_or, Bool.not_eq_true] at hrst hack hroom
  exact ⟨hsyn, hrst, hack, hroom.1, hroom.2, h.symm⟩

/-- Only a lone SYN gets a clone, and the clone is one of the listener as it is then. -/
theorem processListen_cloned {p : Arrival α} {tcb t : ListenTcb α}
    (h : (processListen net p tcb).2 = .cloned t) :
    flagSyn p.flags = true ∧ flagRst p.flags = false ∧ flagAck p.flags = false ∧
      p.noConnections = false ∧ p.noMemory = false ∧
      t = cloneTcb net p (processListen net p tcb).1 := by
  unfold processListen at h ⊢
  by_cases hflags : ((flagSyn p.flags && flagFin p.flags) || p.flags == 1 || p.flags == 0) = true
  · rw [if_pos hflags] at h
    exact nomatch h
  · rw [if_neg hflags] at h ⊢
    exact answerListen_cloned net h

variable {net}

theorem Steady.listener {p : Arrival α} {tcb : ListenTcb α} (h : Steady net tcb p) :
    (processListen net p tcb).1 = tcb := by
  rw [processListen_fst, h.keeps.foldl_eq]

theorem listenRun_steady {ps : List (Arrival α)} {tcb : ListenTcb α}
    (h : ∀ p ∈ ps, Steady net tcb p) : listenRun net tcb ps = tcb := by
  induction ps with
  | nil => rfl
  | cons p ps ih =>
    rw [listenRun, List.foldl_cons, (h p List.mem_cons_self).listener]
    exact ih fun q hq => h q (List.mem_cons_of_mem p hq)

theorem one_le_sndmss {p : Arrival α} {tcb t : ListenTcb α} (h : Steady net tcb p)
    (hmss : 1 ≤ tcb.sndmss) (ht : (processListen net p tcb).2 = .cloned t) : 1 ≤ t.sndmss := by
  obtain ⟨hsyn, hrst, hack, hroom, hmemory, rfl⟩ := processListen_cloned net ht
  have hpath := h.path hsyn hrst hack hroom hmemory
  rw [h.listener]
  have hmin : ∀ rcvmss : UInt16, rcvmss ≠ 0 →
      1 ≤ if tcb.sndmss > rcvmss then rcvmss else tcb.sndmss := by
    intro rcvmss hne
    split_ifs
    · exact UInt16.le_iff_toNat_le.mpr (Nat.one_le_iff_ne_zero.mpr fun h0 =>
        hne (UInt16.toNat_inj.mp h0))
    · exact hmss
  by_cases hremote : tcb.remoteHost = net.addrAny
  · have hfits := hpath hremote
    by_cases hlocal : tcb.localHost = net.addrAny
    · rw [if_pos hlocal] at hfits
      simp only [cloneTcb, if_pos hlocal, if_pos hremote]
      exact hmin _ hfits
    · rw [if_neg hlocal] at hfits
      simp only [cloneTcb, if_neg hlocal, if_pos hremote]
      exact hmin _ hfits
  · by_cases hlocal : tcb.localHost = net.addrAny
    · simp only [cloneTcb, if_pos hlocal, if_neg hremote]
      exact hmss
    · simp only [cloneTcb, if_neg hlocal, if_neg hremote]
      exact hmss

/-- A listener opened by `TCP_Process_open` is not changed by any sequence of steady
segments; the answer to the next one does not depend on which came before, and a clone has a
segment size of one byte at least. -/
theorem listener_isolated (localHost remoteHost : α) (remotePort : UInt16)
    (ps qs : List (Arrival α)) (p : Arrival α)
    (hps : ∀ a ∈ ps, Steady net (openListener net localHost remoteHost remotePort) a)
    (hqs : ∀ a ∈ qs, Steady net (openListener net localHost remoteHost remotePort) a)
    (hp : Steady net (openListener net localHost remoteHost remotePort) p) :
    let listener := openListener net localHost remoteHost remotePort
    let tcb := listenRun net listener ps
    (tcb.sndmss = listener.sndmss ∧ tcb.sndmax = listener.sndmax ∧ tcb.rcvmax = listener.rcvmax ∧
      tcb.rcv2full = listener.rcv2full) ∧
    (processListen net p tcb).2 = (processListen net p (listenRun net listener qs)).2 ∧
    ∀ t, (processListen net p tcb).2 = .cloned t → 1 ≤ t.sndmss := by
  intro listener tcb
  have htcb : tcb = listener := listenRun_steady hps
  have hmss : (1 : UInt16) ≤ 536 := by decide
  rw [htcb, listenRun_steady hqs]
  exact ⟨⟨rfl, rfl, rfl, rfl⟩, rfl, fun t ht => one_le_sndmss hp hmss ht⟩

end Isolation

/-- A SYN without options and one with an MSS option, from port 4000. -/
def plainSyn : ℕ → UInt8 := fun i =>
  [0x0F, 0xA0, 0, 80, 0, 0, 0, 1, 0, 0, 0, 0, 0x50, 0x02].getD i 0

def mssSyn (high low : UInt8) : ℕ → UInt8 := fun i =>
  [0x0F, 0xA0, 0, 80, 0, 0, 0, 1, 0, 0, 0, 0, 0x60, 0x02, 0, 0, 0, 0, 0, 0, 2, 4, high, low].getD i 0

/-- Addresses are 32-bit numbers, every path carries 1500 bytes. -/
def ethernet : NetworkLayer UInt32 := { addrAny := 0, mtu := fun _ _ => 1500, headSize := 40 }

/-- A client that asks for 536 bytes does not disturb the next one. -/
theorem listener_isolated_default :
    let listener := openListener ethernet 0 0 0
    let first : Arrival UInt32 := ⟨mssSyn 2 24, 2, 1, false, false⟩
    let second : Arrival UInt32 := ⟨plainSyn, 3, 1, false, false⟩
    let tcb := listenRun ethernet listener [first]
    (tcb.sndmss = listener.sndmss ∧ tcb.sndmax = listener.sndmax ∧ tcb.rcvmax = listener.rcvmax ∧
      tcb.rcv2full = listener.rcv2full) ∧
    (processListen ethernet second tcb).2 =
      (processListen ethernet second (listenRun ethernet listener [])).2 ∧
    ∀ t, (processListen ethernet second tcb).2 = .cloned t → 1 ≤ t.sndmss := by
  refine listener_isolated 0 0 0 _ [] _ ?_ (fun a ha => nomatch ha) ?_
  · intro a ha
    obtain rfl := List.mem_singleton.mp ha
    have hvalues : (⟨mssSyn 2 24, 2, 1, false, false⟩ : Arrival UInt32).mssValues = [536] := by
      decide
    exact ⟨hvalues ▸ keepsMss_singleton (by decide) (by decide) (by decide),
      fun _ _ _ _ _ _ => by decide⟩
  · have hvalues : (⟨plainSyn, 3, 1, false, false⟩ : Arrival UInt32).mssValues = [] := by decide
    exact ⟨hvalues ▸ keepsMss_nil, fun _ _ _ _ _ _ => by decide⟩

/-- After a SYN whose MSS option holds 0, the clone for another client has segments of no
bytes, and differs from the one that client would have got alone. -/
theorem listener_disturbed :
    let listener := openListener ethernet 0 0 0
    let first : Arrival UInt32 := ⟨mssSyn 0 0, 2, 1, false, false⟩
    let second : Arrival UInt32 := ⟨plainSyn, 3, 1, false, false⟩
    let tcb := listenRun ethernet listener [first]
    tcb.sndmss ≠ listener.sndmss ∧
    (processListen ethernet second tcb).2 ≠ (processListen ethernet second listener).2 ∧
    ∃ t, (processListen ethernet second tcb).2 = .cloned t ∧ t.sndmss = 0 := by
  intro listener first second tcb
  exact ⟨by decide, by decide, cloneTcb ethernet second tcb, by decide, by decide⟩

end Rtcs
end Mqx
