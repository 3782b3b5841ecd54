import Mqx.Rtcs.TcpPrv

/-!
# Finding the TCB of a segment

One list holds the TCBs of both address families. `tcp4ServicePacket` and
`tcp6ServicePacket` walk through it with the addresses of their own family, in which a
TCB of the other family has zeros, and keep the last fully specified candidate and the
best of the others.
-/

namespace Mqx
namespace Rtcs

/-- The fields of a TCB that decide which segments it gets. -/
structure DemuxTcb where
  af : AddressFamily
  state : TcpState
  localPort : BitVec 16
  remotePort : BitVec 16
  localHost : BitVec 32
  remoteHost : BitVec 32
  localIpv6Host : BitVec 128
  remoteIpv6Host : BitVec 128
  ifScopeId : BitVec 32
  bypassRxChksum : Bool
deriving DecidableEq

/-- A received segment with addresses of `w` bits. `scopeId` belongs to the interface it
came from; `hwChksum` says that the hardware has checked it, `chksumOk` what the sum over
its bytes would say. -/
structure DemuxSegment (w : ℕ) where
  source : BitVec w
  dest : BitVec w
  sport : BitVec 16
  dport : BitVec 16
  rst : Bool
  scopeId : BitVec 32
  hwChksum : Bool
  chksumOk : Bool

/-- What becomes of a segment: it is dropped, answered by a reset or handed to a TCB. -/
inductive Service where
  | drop
  | replyReset (tcb : Option DemuxTcb)
  | process (tcb : DemuxTcb)
deriving DecidableEq

/-! ## The walk through the list -/

/-- The loop over the TCBs, with `tcbspec` and `tcbany`: the TCB found and whether the RST
flag was set. A candidate is fully specified (`full`) or not; of the others the last one
with a `preferred` property stays, or else the first one. -/
def findTcb (candidate full preferred inScope : DemuxTcb → Bool) :
    List DemuxTcb → Option DemuxTcb → Option DemuxTcb → Option DemuxTcb × Bool
  | [], tcbspec, tcbany => (tcbspec.or tcbany, false)
  | tcb :: l, tcbspec, tcbany =>
    if !candidate tcb then findTcb candidate full preferred inScope l tcbspec tcbany
    else if full tcb then
      if tcb.state = .timeWait then (none, true)
      else findTcb candidate full preferred inScope l (some tcb) tcbany
    else if (preferred tcb || tcbany.isNone) && inScope tcb then
      findTcb candidate full preferred inScope l tcbspec (some tcb)
    else findTcb candidate full preferred inScope l tcbspec tcbany

def candidate4 (p : DemuxSegment 32) (tcb : DemuxTcb) : Bool :=
  !(tcb.localPort != p.dport || (tcb.remotePort != 0 && tcb.remotePort != p.sport) ||
    (tcb.remoteHost != 0 && tcb.remoteHost != p.source) ||
    (tcb.localHost != 0 && tcb.localHost != p.dest) || tcb.state == .bound)

def full4 (tcb : DemuxTcb) : Bool := tcb.remotePort != 0 && tcb.remoteHost != 0

def preferred4 (tcb : DemuxTcb) : Bool :=
  tcb.remotePort != 0 || tcb.remoteHost != 0 || tcb.af == .inet

def candidate6 (p : DemuxSegment 128) (tcb : DemuxTcb) : Bool :=
  !(tcb.localPort != p.dport || (tcb.remotePort != 0 && tcb.remotePort != p.sport) ||
    (tcb.remoteIpv6Host != 0 && tcb.remoteIpv6Host != p.source) ||
    (tcb.localIpv6Host != 0 && tcb.localIpv6Host != p.dest) || tcb.state == .bound)

def full6 (tcb : DemuxTcb) : Bool := tcb.remotePort != 0 && tcb.remoteIpv6Host != 0

def preferred6 (tcb : DemuxTcb) : Bool :=
  tcb.remotePort != 0 || tcb.remoteIpv6Host != 0 || tcb.af == .inet6

def inScope6 (p : DemuxSegment 128) (tcb : DemuxTcb) : Bool :=
  tcb.ifScopeId == 0 || tcb.ifScopeId == p.scopeId

def tcp4FindTcb (l : List DemuxTcb) (p : DemuxSegment 32) : Option DemuxTcb × Bool :=
  findTcb (candidate4 p) full4 preferred4 (fun _ => true) l none none

def tcp6FindTcb (l : List DemuxTcb) (p : DemuxSegment 128) : Option DemuxTcb × Bool :=
  findTcb (candidate6 p) full6 preferred6 (inScope6 p) l none none

/-- What follows the search, the same for both families: a segment without a TCB is
dropped when it is a reset, then the checksum is verified. -/
def serviceFound {w : ℕ} (p : DemuxSegment w) (found : Option DemuxTcb × Bool) : Service :=
  let rst := p.rst || found.2
  if found.1.isNone && rst then .drop
  else if !p.hwChksum && !(found.1.any DemuxTcb.bypassRxChksum) && !p.chksumOk then .drop
  else
    match found.1 with
    | none => .replyReset none
    | some tcb =>
      if tcb.state = .closed ∨ tcb.state = .timeWait then
        if rst then .drop else .replyReset (some tcb)
      else .process tcb

def inMulticast (a : BitVec 32) : Bool := a &&& 0xF0000000 == 0xE0000000

def in6IsAddrMulticast (a : BitVec 128) : Bool := a.extractLsb' 120 8 == 0xFF

/-- `TCP4_Service_packet` on the list of TCBs. -/
def tcp4ServicePacket (l : List DemuxTcb) (p : DemuxSegment 32) : Service :=
  if inMulticast p.dest then .drop
  else if p.source = 0 then .drop
  else serviceFound p (tcp4FindTcb l p)

/-- `TCP6_Service_packet` on the list of TCBs. -/
def tcp6ServicePacket (l : List DemuxTcb) (p : DemuxSegment 128) : Service :=
  if in6IsAddrMulticast p.dest then .drop
  else if p.source = 0 then .drop
  else serviceFound p (tcp6FindTcb l p)

/-! ## The TCB found -/

section Find

variable (candidate full preferred inScope : DemuxTcb → Bool)

/-- The fully specified candidates, in the order of the list. -/
def fulls (l : List DemuxTcb) : List DemuxTcb := l.filter fun t => candidate t && full t

/-- The other candidates in the scope of the segment. -/
def partials (l : List DemuxTcb) : List DemuxTcb :=
  l.filter fun t => candidate t && !full t && inScope t

/-- Those of them with a preferred property. -/
def preferreds (l : List DemuxTcb) : List DemuxTcb :=
  (partials candidate full inScope l).filter preferred

variable {candidate full preferred inScope}

/-- A fully specified candidate in TIME_WAIT ends the search. -/
theorem findTcb_timeWait {l : List DemuxTcb} (h : ∃ t ∈ fulls candidate full l, t.state = .timeWait)
    (tcbspec tcbany : Option DemuxTcb) :
    findTcb candidate full preferred inScope l tcbspec tcbany = (none, true) := by
  induction l generalizing tcbspec tcbany with
  | nil =>
    obtain ⟨t, ht, -⟩ := h
    exact absurd ht List.not_mem_nil
  | cons a l ih =>
    obtain ⟨t, ht, hs⟩ := h
    unfold fulls at ht ih
    rw [List.filter_cons] at ht
    unfold findTcb
    by_cases hc : candidate a
    · by_cases hf : full a
      · simp only [hc, hf, Bool.not_true, Bool.false_eq_true, if_false, if_true, Bool.and_self] at ht ⊢
        by_cases ha : a.state = .timeWait
        · rw [if_pos ha]
        · rw [if_neg ha]
          apply ih
          rcases List.mem_cons.mp ht with rfl | ht
          · exact absurd hs ha
          · exact ⟨t, ht, hs⟩
      · simp only [hc, hf, Bool.not_true, Bool.false_eq_true, if_false, Bool.and_false] at ht ⊢
        split_ifs
        · exact ih ⟨t, ht, hs⟩ _ _
        · exact ih ⟨t, ht, hs⟩ _ _
    · simp only [hc, Bool.not_false, if_true, Bool.false_and, Bool.false_eq_true, if_false] at ht ⊢
      exact ih ⟨t, ht, hs⟩ _ _

/-- Otherwise the last fully specified candidate is found, or else the last preferred one
of the others, or else the first of them. -/
theorem findTcb_eq {l : List DemuxTcb} (h : ∀ t ∈ fulls candidate full l, t.state ≠ .timeWait)
    (tcbspec tcbany : Option DemuxTcb) :
    findTcb candidate full preferred inScope l tcbspec tcbany =
      (((fulls candidate full l).getLast?.or tcbspec).or
        ((preferreds candidate full preferred inScope l).getLast?.or
          (tcbany.or (partials candidate full inScope l).head?)), false) := by
  induction l generalizing tcbspec tcbany with
  | nil => simp [findTcb, fulls, partials, preferreds]
  | cons a l ih =>
    unfold findTcb
    by_cases hc : candidate a
    · by_cases hf : full a
      · have hne : a.state ≠ .timeWait := h a (by simp [fulls, hc, hf])
        have hfulls : fulls candidate full (a :: l) = a :: fulls candidate full l := by
          simp [fulls, hc, hf]
        have hpartials : partials candidate full inScope (a :: l) =
            partials candidate full inScope l := by
          simp [partials, hf]
        rw [hfulls] at h
        simp only [hc, hf, hne, Bool.not_true, Bool.false_eq_true, if_false, if_true]
        rw [ih (fun t ht => h t (List.mem_cons_of_mem a ht)), hfulls, preferreds, preferreds,
          hpartials, List.getLast?_cons]
        cases (fulls candidate full l).getLast? <;> simp
      · have hfulls : fulls candidate full (a :: l) = fulls candidate full l := by
          simp [fulls, hf]
        rw [hfulls] at h
        simp only [hc, hf, Bool.not_true, Bool.false_eq_true, if_false]
        by_cases hs : inScope a
        · have hpartials : partials candidate full inScope (a :: l) =
              a :: partials candidate full inScope l := by
            simp [partials, hc, hf, hs]
          by_cases hp : preferred a
          · simp only [hs, hp, Bool.true_or, Bool.and_self, if_true]
            rw [ih h, hfulls, preferreds, preferreds, hpartials, List.filter_cons_of_pos hp,
              List.getLast?_cons]
            cases ((partials candidate full inScope l).filter preferred).getLast? <;> simp
          · cases tcbany with
            | none =>
              simp only [hs, Option.isNone_none, Bool.or_true, Bool.and_self, if_true]
              rw [ih h, hfulls, preferreds, preferreds, hpartials, List.filter_cons_of_neg hp]
              simp
            | some b =>
              simp only [hp, Option.isNone_some, Bool.or_self, Bool.false_and, Bool.false_eq_true,
                if_false]
              rw [ih h, hfulls, preferreds, preferreds, hpartials, List.filter_cons_of_neg hp]
              simp
        · have hpartials : partials candidate full inScope (a :: l) =
              partials candidate full inScope l := by
            simp [partials, hs]
          simp only [hs, Bool.and_false, Bool.false_eq_true, if_false]
          rw [ih h, hfulls, preferreds, preferreds, hpartials]
    · have hfulls : fulls candidate full (a :: l) = fulls candidate full l := by
        simp [fulls, hc]
      have hpartials : partials candidate full inScope (a :: l) =
          partials candidate full inScope l := by
        simp [partials, hc]
      rw [hfulls] at h
      simp only [hc, Bool.not_false, if_true]
      rw [ih h, hfulls, preferreds, preferreds, hpartials]

variable (candidate full preferred inScope) in
/-- `t` stands where the choice falls: no fully specified candidate is in TIME_WAIT, and `t`
is the last of them; or there is none, and `t` is the last preferred one of the others; or
there is none of these either, and `t` is the first of the others. -/
def Decisive (l : List DemuxTcb) (t : DemuxTcb) : Prop :=
  (∀ u ∈ fulls candidate full l, u.state ≠ .timeWait) ∧
  ((fulls candidate full l).getLast? = some t ∨
    fulls candidate full l = [] ∧
    ((preferreds candidate full preferred inScope l).getLast? = some t ∨
      preferreds candidate full preferred inScope l = [] ∧
      (partials candidate full inScope l).head? = some t))

theorem findTcb_some {l : List DemuxTcb} {t : DemuxTcb} :
    (findTcb candidate full preferred inScope l none none).1 = some t ↔
      Decisive candidate full preferred inScope l t := by
  by_cases h : ∀ u ∈ fulls candidate full l, u.state ≠ .timeWait
  · rw [findTcb_eq h, Decisive]
    simp only [Option.or_none, Option.none_or, Option.or_eq_some_iff, List.getLast?_eq_none_iff]
    constructor
    · exact fun hp => ⟨h, hp⟩
    · exact fun hp => hp.2
  · have hdead : ∃ u ∈ fulls candidate full l, u.state = .timeWait := by
      push Not at h
      exact h
    rw [findTcb_timeWait hdead]
    constructor
    · exact fun hp => nomatch hp
    · exact fun hp => absurd hp.1 h

theorem decisive_mem {l : List DemuxTcb} {t : DemuxTcb}
    (h : Decisive candidate full preferred inScope l t) : t ∈ l ∧ candidate t = true := by
  have hpartial : t ∈ partials candidate full inScope l → t ∈ l ∧ candidate t = true := by
    intro ht
    simp only [partials, List.mem_filter, Bool.and_eq_true] at ht
    exact ⟨ht.1, ht.2.1.1⟩
  rcases h.2 with ht | ⟨-, ht | ⟨-, ht⟩⟩
  · have hmem := List.mem_of_getLast? ht
    simp only [fulls, List.mem_filter, Bool.and_eq_true] at hmem
    exact ⟨hmem.1, hmem.2.1⟩
  · exact hpartial (List.mem_filter.mp (List.mem_of_getLast? ht)).1
  · exact hpartial (List.mem_of_head? ht)

end Find

theorem serviceFound_process {w : ℕ} {p : DemuxSegment w} {found : Option DemuxTcb × Bool}
    {t : DemuxTcb} :
    serviceFound p found = .process t ↔
      found.1 = some t ∧ (p.hwChksum = true ∨ t.bypassRxChksum = true ∨ p.chksumOk = true) ∧
        t.state ≠ .closed ∧ t.state ≠ .timeWait := by
  obtain ⟨found, flag⟩ := found
  unfold serviceFound
  cases found with
  | none =>
    simp only [Option.isNone_none, Bool.true_and, reduceCtorEq, false_and, iff_false]
    split_ifs <;> exact fun h => nomatch h
  | some u =>
    simp only [Option.isNone_some, Bool.false_and, Bool.false_eq_true, if_false, Option.any_some,
      Option.some.injEq]
    constructor
    · intro h
      split_ifs at h with hsum hstate
      injection h with h
      subst h
      refine ⟨rfl, ?_, fun hc => hstate (Or.inl hc), fun ht => hstate (Or.inr ht)⟩
      simp only [Bool.and_eq_true, Bool.not_eq_true', not_and] at hsum
      grind
    · rintro ⟨rfl, hsum, hclosed, hwait⟩
      rw [if_neg, if_neg]
      · exact fun h => h.elim hclosed hwait
      · simp only [Bool.and_eq_true, Bool.not_eq_true', not_and]
        grind

/-! ## What the search promises -/

/-- The parts that a TCB specifies are those of the segment. -/
def Agrees4 (t : DemuxTcb) (p : DemuxSegment 32) : Prop :=
  t.localPort = p.dport ∧ (t.localHost ≠ 0 → t.localHost = p.dest) ∧
    (t.remotePort ≠ 0 → t.remotePort = p.sport) ∧ (t.remoteHost ≠ 0 → t.remoteHost = p.source)

/-- A connection with both ends specified, the ends of the segment. -/
structure Connection4 (t : DemuxTcb) (p : DemuxSegment 32) : Prop where
  af : t.af ≠ .inet6
  state : t.state ≠ .bound
  localHost : t.localHost ≠ 0
  remotePort : t.remotePort ≠ 0
  remoteHost : t.remoteHost ≠ 0
  agrees : Agrees4 t p

/-- An IPv4 segment goes to a TCB of its family that agrees with it, and a connection with
its ends is preferred to everything else. -/
def Demultiplexed4 (l : List DemuxTcb) (p : DemuxSegment 32) : Prop :=
  (∀ t, tcp4ServicePacket l p = .process t → t ∈ l ∧ t.af ≠ .inet6 ∧ Agrees4 t p) ∧
  ∀ c ∈ l, Connection4 c p → (tcp4FindTcb l p).1 = some c

/-- An IPv6 segment does not go to an IPv4 connection. -/
def Demultiplexed6 (l : List DemuxTcb) (p : DemuxSegment 128) : Prop :=
  ∀ t, tcp6ServicePacket l p = .process t →
    ¬(t.af = .inet ∧ t.remotePort ≠ 0 ∧ t.remoteHost ≠ 0)

/-- The segment passes the checks before and after the search when `t` is found. -/
def CanTake {w : ℕ} (multicast : Bool) (p : DemuxSegment w) (t : DemuxTcb) : Prop :=
  multicast = false ∧ p.source ≠ 0 ∧
    (p.hwChksum = true ∨ t.bypassRxChksum = true ∨ p.chksumOk = true) ∧
    t.state ≠ .closed ∧ t.state ≠ .timeWait

/-- No IPv6 TCB stands in a decisive place, and where the list has a connection with the ends
of the segment, no fully specified candidate is in TIME_WAIT or behind it. -/
def Fits4 (l : List DemuxTcb) (p : DemuxSegment 32) : Prop :=
  (∀ t, t.af = .inet6 → CanTake (inMulticast p.dest) p t →
    ¬Decisive (candidate4 p) full4 preferred4 (fun _ => true) l t) ∧
  ∀ c ∈ l, Connection4 c p →
    (∀ u ∈ fulls (candidate4 p) full4 l, u.state ≠ .timeWait) ∧
      (fulls (candidate4 p) full4 l).getLast? = some c

/-- No IPv4 connection stands in a decisive place. -/
def Fits6 (l : List DemuxTcb) (p : DemuxSegment 128) : Prop :=
  ∀ t, t.af = .inet → t.remotePort ≠ 0 → t.remoteHost ≠ 0 →
    CanTake (in6IsAddrMulticast p.dest) p t →
    ¬Decisive (candidate6 p) full6 preferred6 (inScope6 p) l t

theorem candidate4_agrees {p : DemuxSegment 32} {t : DemuxTcb} (h : candidate4 p t = true) :
    Agrees4 t p := by
  simp only [candidate4, Bool.not_eq_true', Bool.or_eq_false_iff, Bool.and_eq_false_iff,
    bne_eq_false_iff_eq] at h
  obtain ⟨⟨⟨⟨hport, hrport⟩, hrhost⟩, hlhost⟩, -⟩ := h
  exact ⟨hport, fun hne => hlhost.resolve_left hne, fun hne => hrport.resolve_left hne,
    fun hne => hrhost.resolve_left hne⟩

theorem Connection4.mem_fulls {l : List DemuxTcb} {p : DemuxSegment 32} {c : DemuxTcb}
    (h : Connection4 c p) (hc : c ∈ l) : c ∈ fulls (candidate4 p) full4 l := by
  obtain ⟨hport, hlhost, hrport, hrhost⟩ := h.agrees
  have hremote := h.remotePort
  have hsource := h.remoteHost
  rw [hrport hremote] at hremote
  rw [hrhost hsource] at hsource
  simp [fulls, candidate4, full4, hc, hport, hlhost h.localHost, hrport h.remotePort,
    hrhost h.remoteHost, h.state]
  exact ⟨hremote, hsource⟩

theorem canTake_iff {w : ℕ} {multicast : Bool} {p : DemuxSegment w} {t : DemuxTcb}
    {found : Option DemuxTcb × Bool} :
    (if multicast then .drop else if p.source = 0 then .drop else serviceFound p found) =
      Service.process t ↔ CanTake multicast p t ∧ found.1 = some t := by
  unfold CanTake
  split_ifs with hm hs
  · simp [hm]
  · simp [hs]
  · rw [serviceFound_process]
    simp only [hm]
    grind

theorem tcp4ServicePacket_process {l : List DemuxTcb} {p : DemuxSegment 32} {t : DemuxTcb} :
    tcp4ServicePacket l p = .process t ↔ CanTake (inMulticast p.dest) p t ∧
      Decisive (candidate4 p) full4 preferred4 (fun _ => true) l t :=
  canTake_iff.trans (and_congr_right fun _ => findTcb_some)

theorem tcp6ServicePacket_process {l : List DemuxTcb} {p : DemuxSegment 128} {t : DemuxTcb} :
    tcp6ServicePacket l p = .process t ↔ CanTake (in6IsAddrMulticast p.dest) p t ∧
      Decisive (candidate6 p) full6 preferred6 (inScope6 p) l t :=
  canTake_iff.trans (and_congr_right fun _ => findTcb_some)

/-- A connection is chosen when it stands in a decisive place; as it is a fully specified
candidate itself, the other places do not matter. -/
theorem decisive_connection {l : List DemuxTcb} {p : DemuxSegment 32} {c : DemuxTcb}
    (h : Connection4 c p) (hc : c ∈ l) :
    Decisive (candidate4 p) full4 preferred4 (fun _ => true) l c ↔
      (∀ u ∈ fulls (candidate4 p) full4 l, u.state ≠ .timeWait) ∧
        (fulls (candidate4 p) full4 l).getLast? = some c := by
  have hne : fulls (candidate4 p) full4 l ≠ [] := List.ne_nil_of_mem (h.mem_fulls hc)
  unfold Decisive
  simp only [hne, false_and, or_false]

/-- The search keeps its promises exactly when no TCB of the other family stands where the
choice falls and nothing hides a connection. -/
theorem demultiplexed_iff (l : List DemuxTcb) (p : DemuxSegment 32) (q : DemuxSegment 128) :
    Demultiplexed4 l p ∧ Demultiplexed6 l q ↔ Fits4 l p ∧ Fits6 l q := by
  unfold Demultiplexed4 Demultiplexed6 Fits4 Fits6
  refine and_congr (and_congr ?_ ?_) ?_
  · constructor
    · intro h t haf htake hdec
      exact (h t (tcp4ServicePacket_process.mpr ⟨htake, hdec⟩)).2.1 haf
    · intro h t ht
      obtain ⟨htake, hdec⟩ := tcp4ServicePacket_process.mp ht
      obtain ⟨hmem, hcand⟩ := decisive_mem hdec
      exact ⟨hmem, fun haf => h t haf htake hdec, candidate4_agrees hcand⟩
  · refine forall₃_congr fun c hc hconn => ?_
    rw [tcp4FindTcb, findTcb_some]
    exact decisive_connection hconn hc
  · constructor
    · intro h t haf hport hhost htake hdec
      exact h t (tcp6ServicePacket_process.mpr ⟨htake, hdec⟩) ⟨haf, hport, hhost⟩
    · rintro h t ht ⟨haf, hport, hhost⟩
      obtain ⟨htake, hdec⟩ := tcp6ServicePacket_process.mp ht
      exact h t haf hport hhost htake hdec

/-- An IPv4 segment to port 80 goes to a connection between IPv6 addresses that has the same
ports, past the IPv4 listener of the port. -/
theorem segment_to_other_family :
    let listener : DemuxTcb :=
      { af := .inet, state := .listen, localPort := 80, remotePort := 0, localHost := 0,
        remoteHost := 0, localIpv6Host := 0, remoteIpv6Host := 0, ifScopeId := 0,
        bypassRxChksum := false }
    let connection : DemuxTcb :=
      { af := .inet6, state := .established, localPort := 80, remotePort := 4000, localHost := 0,
        remoteHost := 0, localIpv6Host := 0xFD000000000000000000000000000001,
        remoteIpv6Host := 0xFD000000000000000000000000000002, ifScopeId := 0,
        bypassRxChksum := false }
    let p : DemuxSegment 32 :=
      { source := 0x0A000002, dest := 0x0A000001, sport := 4000, dport := 80, rst := false,
        scopeId := 0, hwChksum := false, chksumOk := true }
    tcp4ServicePacket [listener, connection] p = .process connection ∧
      ¬Demultiplexed4 [listener, connection] p := by
  intro listener connection p
  have hp : tcp4ServicePacket [listener, connection] p = .process connection := by decide
  exact ⟨hp, fun h => (h.1 connection hp).2.1 rfl⟩

end Rtcs
end Mqx
