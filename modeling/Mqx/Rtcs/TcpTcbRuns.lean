import Mathlib.Tactic.Common
import Mqx.Rtcs.TcpTcb

/-!
# Accounting of TCBs

The invariant of the lists and of the number of connections, first for the functions that
change them and then for the requests, the segments and the timers.
-/

namespace Mqx
namespace Rtcs

/-- What holds after every event. The facts under `R` are those of runs in which no open
fails and nothing is released that was never opened. -/
structure TcpInv (lim : TcpLimits) (R : Prop) (s : TcpCfg) : Prop where
  null : 0 ∉ s.live
  halfOpen_le : s.halfOpenCount ≤ lim.maxHalfOpen
  halfOpen_live : ∀ i < s.halfOpenCount, s.halfOpenList i ∈ s.live
  halfOpen_inj : ∀ i < s.halfOpenCount, ∀ j < s.halfOpenCount,
    s.halfOpenList i = s.halfOpenList j → i = j
  halfOpen_state : ∀ i < s.halfOpenCount, (s.tcbs (s.halfOpenList i)).state ≠ .listen
  nosock_live : ∀ a ∈ s.nosockTcb, a ∈ s.live
  nosock_nodup : s.nosockTcb.Nodup
  listener : ∀ a ∈ s.nosockTcb,
    (s.tcbs a).listenTcb ∈ s.live ∧ (s.tcbs a).listenTcb ∉ s.nosockTcb
  no_socket : ∀ a ∈ s.nosockTcb, (s.tcbs a).socket = 0
  not_listen : ∀ a ∈ s.nosockTcb, (s.tcbs a).state ≠ .listen
  head_live : ∀ a ∈ s.tcbHead, a ∈ s.live
  head_nodup : s.tcbHead.Nodup
  socket_tcb : ∀ k ≠ 0, (s.sockets k).tcb ≠ 0 →
    (s.sockets k).tcb ∈ s.live ∧ (s.tcbs (s.sockets k).tcb).socket = k
  ground : ∀ k ≠ 0, (s.sockets k).tcb ≠ 0 → (s.sockets k).state = .ground →
    (s.sockets k).tcb ∉ s.tcbHead
  created : ∀ k ≠ 0, (s.sockets k).tcb ≠ 0 → (s.sockets k).state ≠ .connected →
    ∀ i < s.halfOpenCount, s.halfOpenList i ≠ (s.sockets k).tcb
  count : R → s.connCount.toNat = s.connections.card
  halfOpen_opened : R → ∀ i < s.halfOpenCount, (s.tcbs (s.halfOpenList i)).opened = true
  nosock_opened : R → ∀ a ∈ s.nosockTcb, (s.tcbs a).opened = true
  unopened : R → ∀ a ∈ s.live, (s.tcbs a).opened = false →
    (s.tcbs a).state ∈ [TcpState.listen, .bound, .closed]
  unopened_socket : R → ∀ a ∈ s.live, (s.tcbs a).opened = false → (s.tcbs a).socket ≠ 0

namespace TcpInv

variable {lim : TcpLimits} {R : Prop} {s : TcpCfg} {a b k : UInt32} {t : Tcb}

/-! ## Fields of TCBs -/

theorem setTcb_tcbs (b : UInt32) : (s.setTcb a t).tcbs b = if b = a then t else s.tcbs b :=
  Function.update_apply _ _ _ _

theorem setTcb_field {β : Type} (f : Tcb → β) (h : f t = f (s.tcbs a)) (b : UInt32) :
    f ((s.setTcb a t).tcbs b) = f (s.tcbs b) := by
  rw [setTcb_tcbs]
  split_ifs with hb
  · rw [hb, h]
  · rfl

theorem setState_socket (st : TcpState) (b : UInt32) :
    ((s.setState a st).tcbs b).socket = (s.tcbs b).socket :=
  setTcb_field (s := s) (t := { s.tcbs a with state := st }) Tcb.socket rfl b

theorem connections_congr (s s' : TcpCfg) (hlive : s'.live = s.live)
    (hopened : ∀ a, (s'.tcbs a).opened = (s.tcbs a).opened) : s'.connections = s.connections := by
  unfold TcpCfg.connections
  rw [hlive]
  exact Finset.filter_congr fun a _ => by rw [hopened]

theorem weaken (h : TcpInv lim R s) : TcpInv lim False s :=
  { h with
    count := False.elim
    halfOpen_opened := False.elim
    nosock_opened := False.elim
    unopened := False.elim
    unopened_socket := False.elim }

/-- A TCB changes in other fields than those of the lists. -/
theorem setTcb_lists (h : TcpInv lim False s) (hsocket : t.socket = (s.tcbs a).socket)
    (hlisten : t.listenTcb = (s.tcbs a).listenTcb)
    (hstate : t.state = .listen → (s.tcbs a).state = .listen ∨
      a ∉ s.nosockTcb ∧ ∀ i < s.halfOpenCount, s.halfOpenList i ≠ a) :
    TcpInv lim False (s.setTcb a t) := by
  have hs := setTcb_field Tcb.socket hsocket
  have hl := setTcb_field Tcb.listenTcb hlisten
  exact { h with
    halfOpen_state := fun i hi => by
      rw [setTcb_tcbs]
      split_ifs with hia
      · intro hc
        rcases hstate hc with hlisten | ⟨-, hnot⟩
        · exact h.halfOpen_state i hi (hia ▸ hlisten)
        · exact hnot i hi hia
      · exact h.halfOpen_state i hi
    listener := fun b hb => by
      rw [hl]
      exact h.listener b hb
    no_socket := fun b hb => by
      rw [hs]
      exact h.no_socket b hb
    not_listen := fun b hb => by
      rw [setTcb_tcbs]
      split_ifs with hba
      · intro hc
        rcases hstate hc with hlisten | ⟨hnot, -⟩
        · exact h.not_listen a (hba ▸ hb) hlisten
        · exact hnot (hba ▸ hb)
      · exact h.not_listen b hb
    socket_tcb := fun k hk ht => by
      rw [hs]
      exact h.socket_tcb k hk ht
    count := False.elim
    halfOpen_opened := False.elim
    nosock_opened := False.elim
    unopened := False.elim
    unopened_socket := False.elim }

/-- The same for a TCB that stays opened or unopened. -/
theorem setTcb (h : TcpInv lim R s) (hsocket : t.socket = (s.tcbs a).socket)
    (hlisten : t.listenTcb = (s.tcbs a).listenTcb) (hopened : t.opened = (s.tcbs a).opened)
    (hstate : t.state = .listen → (s.tcbs a).state = .listen ∨
      a ∉ s.nosockTcb ∧ ∀ i < s.halfOpenCount, s.halfOpenList i ≠ a)
    (hunopened : R → a ∈ s.live → t.opened = false →
      t.state ∈ [TcpState.listen, .bound, .closed]) :
    TcpInv lim R (s.setTcb a t) := by
  have hs := setTcb_field Tcb.socket hsocket
  have ho := setTcb_field Tcb.opened hopened
  exact { h.weaken.setTcb_lists hsocket hlisten hstate with
    count := fun hR => (h.count hR).trans (congrArg _ (connections_congr s (s.setTcb a t) rfl ho).symm)
    halfOpen_opened := fun hR i hi => by
      rw [ho]
      exact h.halfOpen_opened hR i hi
    nosock_opened := fun hR b hb => by
      rw [ho]
      exact h.nosock_opened hR b hb
    unopened := fun hR b hb hbo => by
      rw [setTcb_tcbs] at hbo ⊢
      split_ifs at hbo ⊢ with hba
      · exact hunopened hR (hba ▸ hb) hbo
      · exact h.unopened hR b hb hbo
    unopened_socket := fun hR b hb hbo => by
      rw [hs]
      exact h.unopened_socket hR b hb ((ho b).symm.trans hbo) }

/-- A TCB that was opened moves to a state other than LISTEN. -/
theorem setState (h : TcpInv lim R s) {x : TcpState} (hst : x ≠ .listen)
    (hopened : R → (s.tcbs a).opened = true ∨ x = .bound ∨ x = .closed) :
    TcpInv lim R (s.setState a x) := by
  refine h.setTcb rfl rfl rfl (fun hc => absurd hc hst) fun hR _ ho => ?_
  rcases hopened hR with hopened | rfl | rfl
  · exact absurd (hopened.symm.trans ho) Bool.noConfusion
  · simp
  · simp

/-! ## The half-open list -/

/-- What `TCB_HALF_OPEN_DROP` leaves of the list. -/
theorem halfOpenDrop_spec (hinj : ∀ i < s.halfOpenCount, ∀ j < s.halfOpenCount,
      s.halfOpenList i = s.halfOpenList j → i = j) (a : UInt32) :
    ∃ n l, s.halfOpenDrop a = { s with halfOpenCount := n, halfOpenList := l } ∧
      n ≤ s.halfOpenCount ∧
      (∀ i < n, l i ≠ a ∧ ∃ j < s.halfOpenCount, l i = s.halfOpenList j) ∧
      (∀ i < n, ∀ j < n, l i = l j → i = j) ∧ (n = s.halfOpenCount → l = s.halfOpenList) ∧
      ∀ i < s.halfOpenCount, s.halfOpenList i = a → n < s.halfOpenCount := by
  unfold TcpCfg.halfOpenDrop
  cases hfind : (List.range s.halfOpenCount).find? fun i => s.halfOpenList i = a with
  | none =>
    have hne : ∀ i < s.halfOpenCount, s.halfOpenList i ≠ a := by
      simpa using hfind
    exact ⟨_, _, rfl, le_refl _, fun i hi => ⟨hne i hi, i, hi, rfl⟩, hinj,
      fun _ => rfl, fun i hi ha => absurd ha (hne i hi)⟩
  | some i =>
    have hi : i < s.halfOpenCount := List.mem_range.mp (List.mem_of_find?_eq_some hfind)
    have ha : s.halfOpenList i = a := by simpa using List.find?_some hfind
    -- each place that stays in use holds the entry of one place of before
    let from_ : ℕ → ℕ := fun j => if j = i then s.halfOpenCount - 1 else j
    have hfrom : ∀ j < s.halfOpenCount - 1, from_ j < s.halfOpenCount ∧ from_ j ≠ i ∧
        Function.update s.halfOpenList i (s.halfOpenList (s.halfOpenCount - 1)) j =
          s.halfOpenList (from_ j) := by
      intro j hj
      simp only [from_, Function.update_apply]
      split_ifs with hji
      · exact ⟨by omega, by omega, rfl⟩
      · exact ⟨by omega, hji, rfl⟩
    refine ⟨_, _, rfl, Nat.sub_le _ _, fun j hj => ?_, fun j hj j' hj' heq => ?_,
      fun _ => by omega, fun _ _ _ => by omega⟩
    · obtain ⟨hlt, hne, heq⟩ := hfrom j hj
      refine ⟨fun hja => hne (hinj _ hlt _ hi ?_), _, hlt, heq⟩
      rw [← heq, hja, ha]
    · obtain ⟨hlt, -, hval⟩ := hfrom j hj
      obtain ⟨hlt', -, hval'⟩ := hfrom j' hj'
      have hsame := hinj _ hlt _ hlt' (by rw [← hval, ← hval', heq])
      simp only [from_] at hsame
      split_ifs at hsame <;> omega

theorem halfOpenDrop (h : TcpInv lim R s) (a : UInt32) : TcpInv lim R (s.halfOpenDrop a) := by
  obtain ⟨n, l, heq, hn, hl, hinj, -⟩ := halfOpenDrop_spec h.halfOpen_inj a
  rw [heq]
  exact { h with
    halfOpen_le := hn.trans h.halfOpen_le
    halfOpen_live := fun i hi => by
      obtain ⟨-, j, hj, hij⟩ := hl i hi
      exact Set.mem_of_eq_of_mem hij (h.halfOpen_live j hj)
    halfOpen_inj := hinj
    halfOpen_state := fun i hi => by
      obtain ⟨-, j, hj, hij⟩ := hl i hi
      exact fun hc => h.halfOpen_state j hj
        ((congrArg (fun b => (s.tcbs b).state) hij).symm.trans hc)
    created := fun k hk ht hc i hi => by
      obtain ⟨-, j, hj, hij⟩ := hl i hi
      exact fun he => h.created k hk ht hc j hj (hij.symm.trans he)
    count := h.count
    halfOpen_opened := fun hR i hi => by
      obtain ⟨-, j, hj, hij⟩ := hl i hi
      exact (congrArg (fun b => (s.tcbs b).opened) hij).trans (h.halfOpen_opened hR j hj) }

/-! ## Sockets and requests -/

theorem opens (h : TcpInv lim R s) (l : List OpenRequest) : TcpInv lim R { s with opens := l } :=
  { h with count := h.count }

theorem attach (h : TcpInv lim R s) (ha : a ∈ s.nosockTcb) (k : UInt32) :
    TcpInv lim R (s.attach a k) := by
  have htcbs : ∀ b, (s.attach a k).tcbs b =
      if b = a then { s.tcbs a with socket := k, listenTcb := 0 } else s.tcbs b := setTcb_tcbs
  have hopened : ∀ b, ((s.attach a k).tcbs b).opened = (s.tcbs b).opened := by
    intro b
    rw [htcbs]
    split_ifs with hb
    · rw [hb]
    · rfl
  have hstate : ∀ b, ((s.attach a k).tcbs b).state = (s.tcbs b).state := by
    intro b
    rw [htcbs]
    split_ifs with hb
    · rw [hb]
    · rfl
  have hmem : ∀ b ∈ (s.attach a k).nosockTcb, b ∈ s.nosockTcb ∧ (s.attach a k).tcbs b = s.tcbs b := by
    intro b hb
    have hb' := (h.nosock_nodup.mem_erase_iff).mp hb
    exact ⟨hb'.2, (htcbs b).trans (if_neg hb'.1)⟩
  have hsock : ∀ k' ≠ k, (s.attach a k).sockets k' = s.sockets k' :=
    fun k' hk' => Function.update_of_ne hk' _ _
  have hsockk : (s.attach a k).sockets k = ⟨a, .connected⟩ := Function.update_self _ _ _
  exact {
    null := h.null
    halfOpen_le := h.halfOpen_le
    halfOpen_live := h.halfOpen_live
    halfOpen_inj := h.halfOpen_inj
    halfOpen_state := fun i hi => by
      rw [hstate]
      exact h.halfOpen_state i hi
    nosock_live := fun b hb => h.nosock_live b (hmem b hb).1
    nosock_nodup := h.nosock_nodup.erase a
    listener := fun b hb => by
      rw [(hmem b hb).2]
      have hl := h.listener b (hmem b hb).1
      exact ⟨hl.1, fun hc => hl.2 (List.mem_of_mem_erase hc)⟩
    no_socket := fun b hb => by
      rw [(hmem b hb).2]
      exact h.no_socket b (hmem b hb).1
    not_listen := fun b hb => by
      rw [(hmem b hb).2]
      exact h.not_listen b (hmem b hb).1
    head_live := h.head_live
    head_nodup := h.head_nodup
    socket_tcb := fun k' hk' ht => by
      by_cases hkk : k' = k
      · rw [hkk, hsockk, htcbs, if_pos rfl]
        exact ⟨h.nosock_live a ha, rfl⟩
      · rw [hsock k' hkk] at ht ⊢
        obtain ⟨hlive, hback⟩ := h.socket_tcb k' hk' ht
        have hne : (s.sockets k').tcb ≠ a :=
          fun hc => hk' (hback.symm.trans (hc ▸ h.no_socket a ha))
        rw [htcbs, if_neg hne]
        exact ⟨hlive, hback⟩
    ground := fun k' hk' ht hg => by
      by_cases hkk : k' = k
      · rw [hkk, hsockk] at hg
        exact SockState.noConfusion hg
      · rw [hsock k' hkk] at ht hg ⊢
        exact h.ground k' hk' ht hg
    created := fun k' hk' ht hc => by
      by_cases hkk : k' = k
      · rw [hkk, hsockk] at hc
        exact absurd rfl hc
      · rw [hsock k' hkk] at ht hc ⊢
        exact h.created k' hk' ht hc
    count := fun hR => (h.count hR).trans (congrArg _ (connections_congr s (s.attach a k) rfl hopened).symm)
    halfOpen_opened := fun hR i hi => by
      rw [hopened]
      exact h.halfOpen_opened hR i hi
    nosock_opened := fun hR b hb => by
      rw [hopened]
      exact h.nosock_opened hR b (hmem b hb).1
    unopened := fun hR b hb hbo => by
      rw [hopened] at hbo
      rw [hstate]
      exact h.unopened hR b hb hbo
    unopened_socket := fun hR b hb hbo => by
      rw [hopened] at hbo
      have hba : b ≠ a := by
        rintro rfl
        exact absurd ((h.nosock_opened hR b ha).symm.trans hbo) Bool.noConfusion
      rw [htcbs, if_neg hba]
      exact h.unopened_socket hR b hb hbo }

theorem addPending (h : TcpInv lim R s) (a : UInt32) : TcpInv lim R (s.addPending a) :=
  h.setTcb rfl rfl rfl Or.inl fun hR hlive ho => h.unopened hR a hlive ho

theorem returnOpen (h : TcpInv lim R s) (a : UInt32) : TcpInv lim R (s.returnOpen a) := by
  unfold TcpCfg.returnOpen
  split
  · rename_i r hfind
    simp only
    split_ifs with ha
    · exact (h.opens (s.opens.erase r)).attach ha r.socket
    · exact h.opens _
  · split_ifs with hclosed hlisten
    · exact h
    · exact h.addPending a
    · exact (h.addPending a).addPending _

theorem closeTcb (h : TcpInv lim R s) (a : UInt32) (failed : Bool) :
    TcpInv lim R (s.closeTcb a failed) := by
  have hclosed : TcpInv lim R (s.setState a .closed) := h.setState (by decide) fun _ => by simp
  unfold TcpCfg.closeTcb
  simp only
  split_ifs with hfailed
  · exact hclosed.returnOpen a
  · exact hclosed

/-! ## What closing keeps -/

/-- Closing and releasing open nothing, allocate nothing and only take from the lists. -/
structure Kept (s s' : TcpCfg) : Prop where
  opened : ∀ b, (s'.tcbs b).opened = (s.tcbs b).opened
  live : s'.live ⊆ s.live
  nosock : s'.nosockTcb ⊆ s.nosockTcb
  socket : ∀ b ∉ s.nosockTcb, (s'.tcbs b).socket = (s.tcbs b).socket
  listen : ∀ b ∈ s'.nosockTcb, (s'.tcbs b).listenTcb = (s.tcbs b).listenTcb
  halfOpen_le : s'.halfOpenCount ≤ s.halfOpenCount
  halfOpen_eq : s'.halfOpenCount = s.halfOpenCount → s'.halfOpenList = s.halfOpenList
  halfOpen_sub : ∀ i < s'.halfOpenCount, ∃ j < s.halfOpenCount,
    s'.halfOpenList i = s.halfOpenList j

theorem Kept.refl (s : TcpCfg) : Kept s s :=
  ⟨fun _ => rfl, fun _ h => h, fun _ h => h, fun _ _ => rfl, fun _ _ => rfl, le_refl _,
    fun _ => rfl, fun i hi => ⟨i, hi, rfl⟩⟩

theorem Kept.trans {s₁ s₂ s₃ : TcpCfg} (h : Kept s₁ s₂) (h' : Kept s₂ s₃) : Kept s₁ s₃ where
  opened b := (h'.opened b).trans (h.opened b)
  live := h'.live.trans h.live
  nosock := fun _ hb => h.nosock (h'.nosock hb)
  socket b hb := (h'.socket b fun hc => hb (h.nosock hc)).trans (h.socket b hb)
  listen b hb := (h'.listen b hb).trans (h.listen b (h'.nosock hb))
  halfOpen_le := h'.halfOpen_le.trans h.halfOpen_le
  halfOpen_eq heq := by
    have h1 := h.halfOpen_le
    have h2 := h'.halfOpen_le
    exact (h'.halfOpen_eq (by omega)).trans (h.halfOpen_eq (by omega))
  halfOpen_sub i hi := by
    obtain ⟨j, hj, hij⟩ := h'.halfOpen_sub i hi
    obtain ⟨m, hm, hjm⟩ := h.halfOpen_sub j hj
    exact ⟨m, hm, hij.trans hjm⟩

theorem kept_setTcb (hopened : t.opened = (s.tcbs a).opened) (hsocket : t.socket = (s.tcbs a).socket)
    (hlisten : t.listenTcb = (s.tcbs a).listenTcb) : Kept s (s.setTcb a t) where
  opened := setTcb_field Tcb.opened hopened
  live _ h := h
  nosock _ h := h
  socket b _ := setTcb_field Tcb.socket hsocket b
  listen b _ := setTcb_field Tcb.listenTcb hlisten b
  halfOpen_le := le_refl _
  halfOpen_eq _ := rfl
  halfOpen_sub i hi := ⟨i, hi, rfl⟩

theorem kept_addPending (s : TcpCfg) (a : UInt32) :
    Kept s (s.addPending a) := kept_setTcb rfl rfl rfl

theorem kept_attach (hnodup : s.nosockTcb.Nodup) (ha : a ∈ s.nosockTcb) (k : UInt32) :
    Kept s (s.attach a k) where
  opened := setTcb_field Tcb.opened rfl
  live _ h := h
  nosock _ h := List.mem_of_mem_erase h
  socket b hb := congrArg Tcb.socket (Function.update_of_ne (fun hba : b = a => hb (hba ▸ ha)) _ _)
  listen b hb := by
    have hne : b ≠ a := (hnodup.mem_erase_iff.mp hb).1
    exact congrArg Tcb.listenTcb (Function.update_of_ne hne _ _)
  halfOpen_le := le_refl _
  halfOpen_eq _ := rfl
  halfOpen_sub i hi := ⟨i, hi, rfl⟩

theorem kept_returnOpen (hnodup : s.nosockTcb.Nodup) (a : UInt32) : Kept s (s.returnOpen a) := by
  have hopens : ∀ l, Kept s { s with opens := l } := fun _ =>
    ⟨fun _ => rfl, fun _ h => h, fun _ h => h, fun _ _ => rfl, fun _ _ => rfl, le_refl _,
      fun _ => rfl, fun i hi => ⟨i, hi, rfl⟩⟩
  unfold TcpCfg.returnOpen
  split
  · rename_i r hfind
    simp only
    split_ifs with ha
    · exact (hopens (s.opens.erase r)).trans
        (kept_attach (s := { s with opens := s.opens.erase r }) hnodup ha r.socket)
    · exact hopens _
  · split_ifs with hclosed hlisten
    · exact Kept.refl s
    · exact kept_addPending s a
    · exact (kept_addPending s a).trans (kept_addPending _ _)

theorem kept_closeTcb (hnodup : s.nosockTcb.Nodup) (a : UInt32) (failed : Bool) :
    Kept s (s.closeTcb a failed) := by
  have hclosed : Kept s (s.setState a .closed) := kept_setTcb rfl rfl rfl
  unfold TcpCfg.closeTcb
  simp only
  split_ifs with hfailed
  · exact hclosed.trans (kept_returnOpen (s := s.setState a .closed) hnodup a)
  · exact hclosed

theorem closeTcb_ok (s : TcpCfg) (a : UInt32) : s.closeTcb a false = s.setState a .closed := by
  simp [TcpCfg.closeTcb]

theorem returnOpen_live (s : TcpCfg) (a : UInt32) : (s.returnOpen a).live = s.live := by
  unfold TcpCfg.returnOpen
  split
  · simp only
    split_ifs <;> rfl
  · split_ifs <;> rfl

theorem closeTcb_live (s : TcpCfg) (a : UInt32) (failed : Bool) :
    (s.closeTcb a failed).live = s.live := by
  unfold TcpCfg.closeTcb
  simp only
  split_ifs
  · exact returnOpen_live _ a
  · rfl

/-! ## Release -/

/-- Nothing but the memory of `a` refers to it. -/
structure Loose (s : TcpCfg) (a : UInt32) : Prop where
  nosock : a ∉ s.nosockTcb
  children : ∀ b ∈ s.nosockTcb, (s.tcbs b).listenTcb ≠ a

/-- What `TCP_Free_TCB` leaves. -/
theorem freeTcb_spec (hinj : ∀ i < s.halfOpenCount, ∀ j < s.halfOpenCount,
      s.halfOpenList i = s.halfOpenList j → i = j) (a : UInt32) :
    ∃ sockets n l, s.freeTcb a =
        { s.setTcb a { s.tcbs a with valid := false } with
          live := s.live.erase a
          sockets := sockets
          tcbHead := s.tcbHead.erase a
          connCount := s.connCount - 1
          halfOpenCount := n
          halfOpenList := l } ∧
      (∀ k ≠ 0, sockets k =
        if k = (s.tcbs a).socket then { s.sockets k with tcb := 0 } else s.sockets k) ∧
      n ≤ s.halfOpenCount ∧
      (∀ i < n, l i ≠ a ∧ ∃ j < s.halfOpenCount, l i = s.halfOpenList j) ∧
      (∀ i < n, ∀ j < n, l i = l j → i = j) ∧ (n = s.halfOpenCount → l = s.halfOpenList) ∧
      ∀ i < s.halfOpenCount, s.halfOpenList i = a → n < s.halfOpenCount := by
  unfold TcpCfg.freeTcb
  simp only
  split_ifs with hsocket
  · obtain ⟨n, l, heq, hspec⟩ := halfOpenDrop_spec (a := a) (s := { (TcpCfg.setSocket { s with
      tcbHead := s.tcbHead.erase a } (s.tcbs a).socket
      { s.sockets (s.tcbs a).socket with tcb := 0 }).setTcb a { s.tcbs a with valid := false } with
      connCount := s.connCount - 1 }) hinj
    refine ⟨_, n, l, congrArg (fun s : TcpCfg => { s with live := s.live.erase a }) heq, ?_, hspec⟩
    intro k _
    show Function.update _ _ _ k = _
    rw [Function.update_apply]
    split_ifs with hk
    · rw [hk]
    · rfl
  · obtain ⟨n, l, heq, hspec⟩ := halfOpenDrop_spec (a := a) (s := { (TcpCfg.setTcb { s with
      tcbHead := s.tcbHead.erase a } a { s.tcbs a with valid := false }) with
      connCount := s.connCount - 1 }) hinj
    refine ⟨_, n, l, congrArg (fun s : TcpCfg => { s with live := s.live.erase a }) heq, ?_, hspec⟩
    intro k hk
    exact (if_neg fun hc => hsocket fun hz => hk (hc.trans hz)).symm

theorem connCount_pred {n : UInt32} {c : ℕ} (h : n.toNat = c) (hc : 0 < c) :
    (n - 1).toNat = c - 1 := by
  have hone : (1 : UInt32) ≤ n := by
    rw [UInt32.le_iff_toNat_le, h]
    exact hc
  rw [UInt32.toNat_sub_of_le _ _ hone, h]
  rfl

theorem freeTcb (h : TcpInv lim R s) (hlive : a ∈ s.live) (hloose : Loose s a)
    (hopened : R → (s.tcbs a).opened = true) : TcpInv lim R (s.freeTcb a) := by
  obtain ⟨sockets, n, l, heq, hsockets, hn, hl, hinj, -⟩ := freeTcb_spec h.halfOpen_inj a
  have hinv : TcpInv lim R (s.setTcb a { s.tcbs a with valid := false }) :=
    h.setTcb rfl rfl rfl Or.inl fun hR _ ho => h.unopened hR a hlive ho
  have hlisten : ∀ b, ((s.setTcb a { s.tcbs a with valid := false }).tcbs b).listenTcb =
      (s.tcbs b).listenTcb := setTcb_field Tcb.listenTcb rfl
  have hopen : ∀ b, ((s.setTcb a { s.tcbs a with valid := false }).tcbs b).opened =
      (s.tcbs b).opened := setTcb_field Tcb.opened rfl
  rw [heq]
  exact {
    null := fun hc => h.null (Finset.mem_of_mem_erase hc)
    halfOpen_le := hn.trans h.halfOpen_le
    halfOpen_live := fun i hi => by
      obtain ⟨hne, j, hj, hij⟩ := hl i hi
      exact Finset.mem_erase.mpr ⟨hne, Set.mem_of_eq_of_mem hij (h.halfOpen_live j hj)⟩
    halfOpen_inj := hinj
    halfOpen_state := fun i hi => by
      obtain ⟨-, j, hj, hij⟩ := hl i hi
      exact fun hc => hinv.halfOpen_state j hj
        ((congrArg (fun b => Tcb.state ((s.setTcb a _).tcbs b)) hij).symm.trans hc)
    nosock_live := fun b hb => Finset.mem_erase.mpr
      ⟨fun hba => hloose.nosock (hba ▸ hb), h.nosock_live b hb⟩
    nosock_nodup := h.nosock_nodup
    listener := fun b hb => by
      have hparent := hinv.listener b hb
      refine ⟨Finset.mem_erase.mpr ⟨?_, hparent.1⟩, hparent.2⟩
      exact fun hc => hloose.children b hb ((hlisten b).symm.trans hc)
    no_socket := hinv.no_socket
    not_listen := hinv.not_listen
    head_live := fun b hb => by
      have hb' := h.head_nodup.mem_erase_iff.mp hb
      exact Finset.mem_erase.mpr ⟨hb'.1, h.head_live b hb'.2⟩
    head_nodup := h.head_nodup.erase a
    socket_tcb := fun k hk ht => by
      simp only [hsockets k hk] at ht ⊢
      split_ifs at ht ⊢ with hka
      · exact absurd rfl ht
      · have hback := hinv.socket_tcb k hk ht
        refine ⟨Finset.mem_erase.mpr ⟨fun hc => hka ?_, hback.1⟩, hback.2⟩
        rw [← (h.socket_tcb k hk ht).2, hc]
    ground := fun k hk ht hg => by
      simp only [hsockets k hk] at ht hg ⊢
      split_ifs at ht hg ⊢ with hka
      · exact absurd rfl ht
      · exact fun hc => h.ground k hk ht hg (List.mem_of_mem_erase hc)
    created := fun k hk ht hc i hi => by
      obtain ⟨-, j, hj, hij⟩ := hl i hi
      simp only [hsockets k hk] at ht hc ⊢
      split_ifs at ht hc ⊢ with hka
      · exact absurd rfl ht
      · exact fun he => h.created k hk ht hc j hj (hij.symm.trans he)
    count := fun hR => by
      have hmem : a ∈ s.connections := Finset.mem_filter.mpr ⟨hlive, hopened hR⟩
      have hconn : TcpCfg.connections { s.setTcb a { s.tcbs a with valid := false } with
          live := s.live.erase a, sockets := sockets, tcbHead := s.tcbHead.erase a,
          connCount := s.connCount - 1, halfOpenCount := n, halfOpenList := l } =
          s.connections.erase a := by
        unfold TcpCfg.connections
        rw [← Finset.filter_erase]
        exact Finset.filter_congr fun b _ => iff_of_eq (congrArg (· = true) (hopen b))
      rw [hconn, Finset.card_erase_of_mem hmem]
      exact connCount_pred (h.count hR) (Finset.card_pos.mpr ⟨a, hmem⟩)
    halfOpen_opened := fun hR i hi => by
      obtain ⟨-, j, hj, hij⟩ := hl i hi
      exact (congrArg (fun b => Tcb.opened ((s.setTcb a _).tcbs b)) hij).trans
        (hinv.halfOpen_opened hR j hj)
    nosock_opened := hinv.nosock_opened
    unopened := fun hR b hb => hinv.unopened hR b (Finset.mem_of_mem_erase hb)
    unopened_socket := fun hR b hb => hinv.unopened_socket hR b (Finset.mem_of_mem_erase hb) }

theorem kept_freeTcb (h : TcpInv lim R s) (a : UInt32) : Kept s (s.freeTcb a) := by
  obtain ⟨sockets, n, l, heq, -, hn, hsub, -, hl, -⟩ := freeTcb_spec h.halfOpen_inj a
  rw [heq]
  exact ⟨setTcb_field Tcb.opened rfl, Finset.erase_subset _ _, fun _ hb => hb,
    fun b _ => setTcb_field (s := s) (t := { s.tcbs a with valid := false }) Tcb.socket rfl b,
    fun b _ => setTcb_field (s := s) (t := { s.tcbs a with valid := false }) Tcb.listenTcb rfl b,
    hn, hl, fun i hi => (hsub i hi).2⟩

theorem freeTcb_nosock (h : TcpInv lim R s) (a : UInt32) :
    (s.freeTcb a).nosockTcb = s.nosockTcb ∧ (s.freeTcb a).live = s.live.erase a := by
  obtain ⟨sockets, n, l, heq, -⟩ := freeTcb_spec h.halfOpen_inj a
  rw [heq]
  exact ⟨rfl, rfl⟩

/-- A TCB comes off the list of the TCBs without a socket. -/
theorem unlist (h : TcpInv lim R s) {l : List UInt32} (hl : l.Sublist s.nosockTcb) :
    TcpInv lim R { s with nosockTcb := l } :=
  { h with
    nosock_live := fun b hb => h.nosock_live b (hl.subset hb)
    nosock_nodup := h.nosock_nodup.sublist hl
    listener := fun b hb =>
      ⟨(h.listener b (hl.subset hb)).1, fun hc => (h.listener b (hl.subset hb)).2 (hl.subset hc)⟩
    no_socket := fun b hb => h.no_socket b (hl.subset hb)
    not_listen := fun b hb => h.not_listen b (hl.subset hb)
    count := h.count
    nosock_opened := fun hR b hb => h.nosock_opened hR b (hl.subset hb) }

theorem kept_unlist {l : List UInt32} (hl : l.Sublist s.nosockTcb) :
    Kept s { s with nosockTcb := l } :=
  ⟨fun _ => rfl, fun _ h => h, hl.subset, fun _ _ => rfl, fun _ _ => rfl, le_refl _,
    fun _ => rfl, fun i hi => ⟨i, hi, rfl⟩⟩

/-- The search finds nothing for a TCB that nothing refers to. -/
theorem releaseLoop_loose {release : TcpCfg → UInt32 → TcpCfg} (hloose : Loose s b) (n : ℕ) :
    ∀ pos, TcpCfg.releaseLoop release b n pos s = s := by
  induction n with
  | zero => exact fun _ => rfl
  | succ n ih =>
    intro pos
    unfold TcpCfg.releaseLoop
    cases hget : s.nosockTcb[pos]? with
    | none => rfl
    | some c =>
      have hc : c ∈ s.nosockTcb := List.mem_of_getElem? hget
      simp only [if_neg fun hcb : c = b => hloose.nosock (hcb ▸ hc),
        if_neg (hloose.children c hc)]
      exact ih (pos + 1)

theorem releaseDepth_loose (hloose : Loose s b) (d : ℕ) :
    TcpCfg.releaseDepth d s b = s.freeTcb b := by
  cases d with
  | zero => rfl
  | succ d =>
    unfold TcpCfg.releaseDepth
    rw [releaseLoop_loose hloose]

/-- The search of a release: it ends with a TCB that nothing refers to. -/
theorem releaseLoop_spec (d : ℕ) (n : ℕ) : ∀ {s : TcpCfg} (pos : ℕ), TcpInv lim R s → a ∈ s.live →
    (∀ c ∈ s.nosockTcb.take pos, c ≠ a ∧ (s.tcbs c).listenTcb ≠ a) →
    s.nosockTcb.length - pos ≤ n →
    let s' := TcpCfg.releaseLoop (TcpCfg.releaseDepth d) a n pos s
    TcpInv lim R s' ∧ Kept s s' ∧ (∀ c ∈ s.live, c ∉ s.nosockTcb → c ∈ s'.live) ∧ a ∈ s'.live ∧
      Loose s' a := by
  induction n with
  | zero =>
    intro s pos h hlive hpre hlen
    rw [List.take_of_length_le (by omega)] at hpre
    exact ⟨h, Kept.refl s, fun _ hc _ => hc, hlive, fun hc => (hpre a hc).1 rfl,
      fun c hc => (hpre c hc).2⟩
  | succ n ih =>
    intro s pos h hlive hpre hlen
    unfold TcpCfg.releaseLoop
    cases hget : s.nosockTcb[pos]? with
    | none =>
      rw [List.take_of_length_le (List.getElem?_eq_none_iff.mp hget)] at hpre
      exact ⟨h, Kept.refl s, fun _ hc _ => hc, hlive, fun hc => (hpre a hc).1 rfl,
        fun c hc => (hpre c hc).2⟩
    | some b =>
      have hb : b ∈ s.nosockTcb := List.mem_of_getElem? hget
      obtain ⟨hpos, hgetb⟩ := List.getElem?_eq_some_iff.mp hget
      have hsub := List.eraseIdx_sublist s.nosockTcb pos
      have hmem : b ∉ s.nosockTcb.eraseIdx pos := by
        rw [← hgetb, ← h.nosock_nodup.erase_getElem pos hpos]
        exact h.nosock_nodup.not_mem_erase
      simp only
      split_ifs with hba hchild
      · subst hba
        exact ⟨h.unlist hsub, kept_unlist hsub, fun _ hc _ => hc, hlive, hmem,
          fun c hc hcb => (h.listener c (hsub.subset hc)).2 (hcb ▸ hb)⟩
      · have hb' := h.unlist hsub
        have hclose := hb'.closeTcb b false
        have hkept := (kept_unlist hsub).trans (kept_closeTcb hb'.nosock_nodup b false)
        rw [closeTcb_ok] at hclose hkept ⊢
        have hloose : Loose (TcpCfg.setState { s with nosockTcb := s.nosockTcb.eraseIdx pos } b
            .closed) b :=
          ⟨hmem, fun c hc hcb => (h.listener c (hsub.subset hc)).2
            ((hkept.listen c hc).symm.trans hcb ▸ hb)⟩
        have hfree := hclose.freeTcb (h.nosock_live b hb) hloose
          fun hR => (hkept.opened b).trans (h.nosock_opened hR b hb)
        have hkept' := hkept.trans (kept_freeTcb hclose b)
        obtain ⟨hnosock, hlive'⟩ := freeTcb_nosock hclose b
        rw [releaseDepth_loose hloose]
        have hpre' : ∀ c ∈ (s.nosockTcb.eraseIdx pos).take pos, c ∈ s.nosockTcb.take pos := by
          intro c hc
          rw [List.eraseIdx_eq_take_drop_succ, List.take_left' (by simp; omega)] at hc
          exact hc
        obtain ⟨hs', hk', hspare, hl', ho'⟩ := ih pos hfree
          (hlive' ▸ Finset.mem_erase.mpr ⟨Ne.symm hba, hlive⟩)
          (fun c hc => by
            rw [hnosock] at hc
            have hold := hpre c (hpre' c hc)
            refine ⟨hold.1, fun hca => hold.2 ?_⟩
            rw [← hca]
            exact (hkept'.listen c (hnosock ▸ List.mem_of_mem_take hc)).symm)
          (by
            rw [hnosock]
            show (s.nosockTcb.eraseIdx pos).length - pos ≤ n
            rw [List.length_eraseIdx_of_lt hpos]
            omega)
        refine ⟨hs', hkept'.trans hk', fun c hc hnot => hspare c ?_ ?_, hl', ho'⟩
        · exact hlive' ▸ Finset.mem_erase.mpr ⟨fun hcb => hnot (hcb ▸ hb), hc⟩
        · exact fun hc' => hnot (hkept'.nosock hc')
      · refine ih (pos + 1) h hlive ?_ (by omega)
        rw [List.take_add_one, hget]
        intro c hc
        rcases List.mem_append.mp hc with hc | hc
        · exact hpre c hc
        · obtain rfl : c = b := by simpa using hc
          exact ⟨hba, hchild⟩

/-- A release gives back a TCB with all that it has spawned. -/
theorem processRelease (h : TcpInv lim R s) (hlive : a ∈ s.live)
    (hopened : R → (s.tcbs a).opened = true) :
    TcpInv lim R (s.processRelease a) ∧ Kept s (s.processRelease a) ∧
      (∀ c ∈ s.live, c ∉ s.nosockTcb → c ≠ a → c ∈ (s.processRelease a).live) ∧
      ∀ i < s.halfOpenCount, s.halfOpenList i = a →
        (s.processRelease a).halfOpenCount < s.halfOpenCount := by
  unfold TcpCfg.processRelease TcpCfg.releaseDepth
  obtain ⟨h', hkept, hspare, hlive', hloose⟩ := releaseLoop_spec (a := a) s.nosockTcb.length
    s.nosockTcb.length 0 h hlive (by simp) (by omega)
  have hfree := h'.freeTcb hlive' hloose fun hR => (hkept.opened a).trans (hopened hR)
  have hkept' := kept_freeTcb h' a
  refine ⟨hfree, hkept.trans hkept', fun c hc hnot hca => ?_, fun i hi ha => ?_⟩
  · rw [(freeTcb_nosock h' a).2]
    exact Finset.mem_erase.mpr ⟨hca, hspare c hc hnot⟩
  have hle := hkept.halfOpen_le
  have hle' := hkept'.halfOpen_le
  rcases Nat.lt_or_eq_of_le hle with hlt | heq
  · omega
  · -- the search has not touched the list of half-open TCBs
    obtain ⟨_, n, l, hs', -, -, -, -, -, hdrop⟩ := freeTcb_spec h'.halfOpen_inj a
    have hlt := hdrop i (by omega) (by rw [hkept.halfOpen_eq heq, ha])
    rw [hs']
    exact lt_of_lt_of_eq hlt heq

/-- Closing and releasing in one step. -/
theorem closeRelease (h : TcpInv lim R s) (hlive : a ∈ s.live) (failed : Bool)
    (hopened : R → (s.tcbs a).opened = true) :
    TcpInv lim R ((s.closeTcb a failed).processRelease a) ∧
      Kept s ((s.closeTcb a failed).processRelease a) ∧
      (∀ c ∈ s.live, c ∉ s.nosockTcb → c ≠ a →
        c ∈ ((s.closeTcb a failed).processRelease a).live) ∧
      ∀ i < s.halfOpenCount, s.halfOpenList i = a →
        ((s.closeTcb a failed).processRelease a).halfOpenCount < s.halfOpenCount := by
  have hclose := h.closeTcb a failed
  have hkept := kept_closeTcb h.nosock_nodup a failed
  obtain ⟨h', hkept', hspare, hdrop⟩ := hclose.processRelease (a := a)
    (by rw [closeTcb_live]; exact hlive) fun hR => (hkept.opened a).trans (hopened hR)
  refine ⟨h', hkept.trans hkept', fun c hc hnot hca => hspare c ?_ ?_ hca, fun i hi ha => ?_⟩
  · rw [closeTcb_live]
    exact hc
  · exact fun hc' => hnot (hkept.nosock hc')
  rcases Nat.lt_or_eq_of_le hkept.halfOpen_le with hlt | heq
  · exact lt_of_le_of_lt hkept'.halfOpen_le hlt
  · exact lt_of_lt_of_eq (hdrop i (by omega) (by rw [hkept.halfOpen_eq heq, ha])) heq

/-! ## Half-open connections -/

/-- A TCB that is in neither list. -/
def Apart (s : TcpCfg) (c : UInt32) : Prop :=
  c ∈ s.live ∧ c ∉ s.nosockTcb ∧ ∀ i < s.halfOpenCount, s.halfOpenList i ≠ c

theorem Apart.kept {s s' : TcpCfg} {c : UInt32} (hc : Apart s c) (hkept : Kept s s')
    (hlive : c ∈ s'.live) : Apart s' c := by
  refine ⟨hlive, fun hc' => hc.2.1 (hkept.nosock hc'), fun i hi => ?_⟩
  obtain ⟨j, hj, hij⟩ := hkept.halfOpen_sub i hi
  rw [hij]
  exact hc.2.2 j hj

theorem closeHalfOpen (h : TcpInv lim R s) {i : ℕ} (hi : i < s.halfOpenCount) :
    let s' := (s.closeTcb (s.halfOpenList i) true).processRelease (s.halfOpenList i)
    TcpInv lim R s' ∧ Kept s s' ∧ (∀ c, Apart s c → Apart s' c) ∧
      s'.halfOpenCount < s.halfOpenCount := by
  obtain ⟨h', hkept, hspare, hdrop⟩ := h.closeRelease (h.halfOpen_live i hi) true
    fun hR => h.halfOpen_opened hR i hi
  exact ⟨h', hkept, fun c hc => hc.kept hkept (hspare c hc.1 hc.2.1 (hc.2.2 i hi).symm),
    hdrop i hi rfl⟩

theorem halfOpenLoop (now : UInt32) (n : ℕ) : ∀ {s : TcpCfg} (i removed : ℕ), TcpInv lim R s →
    let r := TcpCfg.halfOpenLoop now n i removed s
    TcpInv lim R r.1 ∧ Kept s r.1 ∧ (∀ c, Apart s c → Apart r.1 c) ∧
      (r.2 = removed ∨ r.1.halfOpenCount < s.halfOpenCount) := by
  induction n with
  | zero => exact fun i removed h => ⟨h, Kept.refl _, fun _ hc => hc, Or.inl rfl⟩
  | succ n ih =>
    intro s i removed h
    unfold TcpCfg.halfOpenLoop
    simp only
    split_ifs with hi hold
    · obtain ⟨h', hkept, hapart, hlt⟩ := h.closeHalfOpen hi
      obtain ⟨h'', hkept', hapart', -⟩ := ih i (removed + 1) h'
      exact ⟨h'', hkept.trans hkept', fun c hc => hapart' c (hapart c hc),
        Or.inr (lt_of_le_of_lt hkept'.halfOpen_le hlt)⟩
    · exact ih (i + 1) removed h
    · exact ⟨h, Kept.refl s, fun _ hc => hc, Or.inl rfl⟩

/-- `TCP_half_open_TCB_close` removes a TCB if there is one. -/
theorem halfOpenTcbClose (h : TcpInv lim R s) (now rand : UInt32) :
    let s' := s.halfOpenTcbClose now rand
    TcpInv lim R s' ∧ Kept s s' ∧ (∀ c, Apart s c → Apart s' c) ∧
      (s.halfOpenCount = 0 ∨ s'.halfOpenCount < s.halfOpenCount) := by
  obtain ⟨h', hkept, hapart, hremoved⟩ := halfOpenLoop now s.halfOpenCount 0 0 h
  unfold TcpCfg.halfOpenTcbClose
  simp only
  split_ifs with hnone
  · obtain ⟨hr, hcount⟩ := hnone
    obtain ⟨h'', hkept', hapart', hlt⟩ :=
      h'.closeHalfOpen (Nat.mod_lt rand.toNat (Nat.pos_of_ne_zero hcount))
    exact ⟨h'', hkept.trans hkept', fun c hc => hapart' c (hapart c hc),
      Or.inr (lt_of_lt_of_le hlt hkept.halfOpen_le)⟩
  · refine ⟨h', hkept, hapart, ?_⟩
    rcases hremoved with hr | hlt
    · have hzero := not_and_not_right.mp hnone hr
      rcases Nat.eq_zero_or_pos s.halfOpenCount with hz | hpos
      · exact Or.inl hz
      · exact Or.inr (by omega)
    · exact Or.inr hlt

theorem makeRoom (h : TcpInv lim R s) (g : SegmentEvent) :
    let s' := s.makeRoom lim g
    TcpInv lim R s' ∧ Kept s s' ∧ (∀ c, Apart s c → Apart s' c) ∧
      (lim.maxHalfOpen ≠ 0 → s'.halfOpenCount < lim.maxHalfOpen) := by
  have hle := h.halfOpen_le
  unfold TcpCfg.makeRoom
  split_ifs with hroom
  · obtain ⟨h', hkept, hapart, hcount⟩ := h.halfOpenTcbClose g.now g.rand
    have hle' := hkept.halfOpen_le
    exact ⟨h', hkept, hapart, fun _ => by omega⟩
  · refine ⟨h, Kept.refl s, fun _ hc => hc, fun hmax => ?_⟩
    by_contra hc
    exact hroom ⟨hmax, Or.inl (by omega)⟩

/-! ## New TCBs -/

/-- Fewer TCBs than addresses. -/
theorem card_lt {f : Finset UInt32} (hf : 0 ∉ f) : f.card < 2 ^ 32 := by
  have hle : f.card ≤ ((Finset.range (2 ^ 32)).erase 0).card := by
    refine Finset.card_le_card_of_injOn UInt32.toNat (fun a ha => ?_) fun a _ b _ hab =>
      UInt32.toNat_inj.mp hab
    refine Finset.mem_coe.mpr (Finset.mem_erase.mpr ⟨fun hz => hf ?_, ?_⟩)
    · have ha0 : a = 0 := UInt32.toNat_inj.mp hz
      exact ha0 ▸ ha
    · exact Finset.mem_range.mpr a.toNat_lt
  rw [Finset.card_erase_of_mem (Finset.mem_range.mpr (by omega)), Finset.card_range] at hle
  omega

/-- One more connection. -/
theorem connCount_insert {n : UInt32} {f : Finset UInt32} (hb : b ∉ f) (hnull : 0 ∉ insert b f)
    (hcount : n.toNat = f.card) : (n + 1).toNat = (insert b f).card := by
  have hlt := card_lt hnull
  rw [Finset.card_insert_of_notMem hb] at hlt ⊢
  rw [UInt32.toNat_add, hcount]
  exact Nat.mod_eq_of_lt hlt

theorem cloneTcb_spec (lim : TcpLimits) (s : TcpCfg) (a block now : UInt32)
    (hle : s.halfOpenCount ≤ lim.maxHalfOpen)
    (hroom : lim.maxHalfOpen ≠ 0 → s.halfOpenCount < lim.maxHalfOpen) :
    ∃ n l, s.cloneTcb lim a block now =
        { s.setTcb block { s.tcbs a with
            socket := 0, listenTcb := a, connPending := 0, spawnTime := now
            state := .synReceived, opened := true } with
          live := insert block s.live
          tcbHead := block :: s.tcbHead
          connCount := s.connCount + 1
          nosockTcb := block :: s.nosockTcb
          halfOpenCount := n
          halfOpenList := l } ∧
      n ≤ lim.maxHalfOpen ∧
      ∀ i < n, i < s.halfOpenCount ∧ l i = s.halfOpenList i ∨ i = s.halfOpenCount ∧ l i = block := by
  unfold TcpCfg.cloneTcb
  simp only
  split_ifs with hmax
  · refine ⟨_, _, rfl, hroom hmax, fun i hi => ?_⟩
    rcases Nat.lt_or_eq_of_le (Nat.le_of_lt_succ hi) with hlt | heq
    · exact Or.inl ⟨hlt, Function.update_of_ne (Nat.ne_of_lt hlt) _ _⟩
    · exact Or.inr ⟨heq, heq ▸ Function.update_self _ _ _⟩
  · exact ⟨_, _, rfl, hle, fun i hi => Or.inl ⟨hi, rfl⟩⟩

theorem cloneTcb {block : UInt32} (h : TcpInv lim R s) (hlive : a ∈ s.live)
    (hnosock : a ∉ s.nosockTcb) (hblock : block ∉ s.live) (hnull : block ≠ 0)
    (hroom : lim.maxHalfOpen ≠ 0 → s.halfOpenCount < lim.maxHalfOpen) (now : UInt32) :
    TcpInv lim R (s.cloneTcb lim a block now) := by
  obtain ⟨n, l, heq, hle, hl⟩ := cloneTcb_spec lim s a block now h.halfOpen_le hroom
  have hold : ∀ c ∈ s.live, (s.cloneTcb lim a block now).tcbs c = s.tcbs c := by
    intro c hc
    rw [heq]
    exact Function.update_of_ne (fun hcb : c = block => hblock (hcb ▸ hc)) _ _
  have hnew : (s.cloneTcb lim a block now).tcbs block = { s.tcbs a with
      socket := 0, listenTcb := a, connPending := 0, spawnTime := now
      state := .synReceived, opened := true } := by
    rw [heq]
    exact Function.update_self _ _ _
  have hconn : (s.cloneTcb lim a block now).connections = insert block s.connections := by
    have hlive' : (s.cloneTcb lim a block now).live = insert block s.live := by rw [heq]
    unfold TcpCfg.connections
    rw [hlive', Finset.filter_insert, if_pos (by rw [hnew])]
    exact congrArg _ (Finset.filter_congr fun c hc => by rw [hold c hc])
  have hab : a ≠ block := fun hc => hblock (hc ▸ hlive)
  have hnosock_block : block ∉ s.nosockTcb := fun hc => hblock (h.nosock_live block hc)
  rw [heq] at hold hnew hconn ⊢
  exact {
    null := fun hc => by
      rcases Finset.mem_insert.mp hc with hc | hc
      · exact hnull hc.symm
      · exact h.null hc
    halfOpen_le := hle
    halfOpen_live := fun i hi => by
      rcases hl i hi with ⟨hi', hli⟩ | ⟨-, hli⟩
      · exact Finset.mem_insert_of_mem (Set.mem_of_eq_of_mem hli (h.halfOpen_live i hi'))
      · exact Set.mem_of_eq_of_mem hli (Finset.mem_insert_self _ _)
    halfOpen_inj := fun i hi j hj hij => by
      have hne : ∀ m < s.halfOpenCount, s.halfOpenList m ≠ block :=
        fun m hm hc => hblock (hc ▸ h.halfOpen_live m hm)
      rcases hl i hi with ⟨hi', hli⟩ | ⟨hi', hli⟩ <;> rcases hl j hj with ⟨hj', hlj⟩ | ⟨hj', hlj⟩
      · exact h.halfOpen_inj i hi' j hj' (hli.symm.trans (hij.trans hlj))
      · exact absurd (hli.symm.trans (hij.trans hlj)) (hne i hi')
      · exact absurd (hlj.symm.trans (hij.symm.trans hli)) (hne j hj')
      · rw [hi', hj']
    halfOpen_state := fun i hi => by
      simp only
      rcases hl i hi with ⟨hi', hli⟩ | ⟨-, hli⟩
      · rw [hli, hold _ (h.halfOpen_live i hi')]
        exact h.halfOpen_state i hi'
      · rw [hli, hnew]
        exact fun hc => TcpState.noConfusion hc
    nosock_live := fun c hc => by
      rcases List.mem_cons.mp hc with rfl | hc
      · exact Finset.mem_insert_self _ _
      · exact Finset.mem_insert_of_mem (h.nosock_live c hc)
    nosock_nodup := h.nosock_nodup.cons hnosock_block
    listener := fun c hc => by
      rcases List.mem_cons.mp hc with rfl | hc
      · rw [hnew]
        exact ⟨Finset.mem_insert_of_mem hlive, fun ha => by
          rcases List.mem_cons.mp ha with ha | ha
          · exact hab ha
          · exact hnosock ha⟩
      · rw [hold c (h.nosock_live c hc)]
        have hparent := h.listener c hc
        refine ⟨Finset.mem_insert_of_mem hparent.1, fun hp => ?_⟩
        rcases List.mem_cons.mp hp with hp | hp
        · exact hblock (hp ▸ hparent.1)
        · exact hparent.2 hp
    no_socket := fun c hc => by
      rcases List.mem_cons.mp hc with rfl | hc
      · rw [hnew]
      · rw [hold c (h.nosock_live c hc)]
        exact h.no_socket c hc
    not_listen := fun c hc => by
      rcases List.mem_cons.mp hc with rfl | hc
      · rw [hnew]
        exact fun hc => TcpState.noConfusion hc
      · rw [hold c (h.nosock_live c hc)]
        exact h.not_listen c hc
    head_live := fun c hc => by
      rcases List.mem_cons.mp hc with rfl | hc
      · exact Finset.mem_insert_self _ _
      · exact Finset.mem_insert_of_mem (h.head_live c hc)
    head_nodup := h.head_nodup.cons fun hc => hblock (h.head_live block hc)
    socket_tcb := fun k hk ht => by
      obtain ⟨hlive', hback⟩ := h.socket_tcb k hk ht
      refine ⟨Finset.mem_insert_of_mem hlive', ?_⟩
      exact (congrArg Tcb.socket (hold _ hlive')).trans hback
    ground := fun k hk ht hg hc => by
      rcases List.mem_cons.mp hc with hc | hc
      · exact hblock (hc ▸ (h.socket_tcb k hk ht).1)
      · exact h.ground k hk ht hg hc
    created := fun k hk ht hs i hi => by
      rcases hl i hi with ⟨hi', hli⟩ | ⟨-, hli⟩
      · exact fun hc => h.created k hk ht hs i hi' (hli.symm.trans hc)
      · exact fun hc => hblock ((hli.symm.trans hc) ▸ (h.socket_tcb k hk ht).1)
    count := fun hR => by
      have hnot : block ∉ s.connections := fun hc => hblock (Finset.mem_of_mem_filter _ hc)
      rw [hconn]
      refine connCount_insert hnot (fun hc => ?_) (h.count hR)
      rcases Finset.mem_insert.mp hc with hc | hc
      · exact hnull hc.symm
      · exact h.null (Finset.mem_of_mem_filter _ hc)
    halfOpen_opened := fun hR i hi => by
      simp only
      rcases hl i hi with ⟨hi', hli⟩ | ⟨-, hli⟩
      · rw [hli, hold _ (h.halfOpen_live i hi')]
        exact h.halfOpen_opened hR i hi'
      · rw [hli, hnew]
    nosock_opened := fun hR c hc => by
      rcases List.mem_cons.mp hc with rfl | hc
      · rw [hnew]
      · rw [hold c (h.nosock_live c hc)]
        exact h.nosock_opened hR c hc
    unopened := fun hR c hc hco => by
      rcases Finset.mem_insert.mp hc with rfl | hc
      · rw [hnew] at hco
        exact absurd hco Bool.noConfusion
      · rw [hold c hc] at hco ⊢
        exact h.unopened hR c hc hco
    unopened_socket := fun hR c hc hco => by
      rcases Finset.mem_insert.mp hc with rfl | hc
      · rw [hnew] at hco
        exact absurd hco Bool.noConfusion
      · rw [hold c hc] at hco ⊢
        exact h.unopened_socket hR c hc hco }

/-! ## Requests -/

/-- A socket that is freed, or that has a TCB of its own. -/
theorem setSocket (h : TcpInv lim R s) {v : StreamSocket}
    (hback : v.tcb ≠ 0 → v.tcb ∈ s.live ∧ (s.tcbs v.tcb).socket = k)
    (hground : v.tcb ≠ 0 → v.state = .ground → v.tcb ∉ s.tcbHead)
    (hcreated : v.tcb ≠ 0 → v.state ≠ .connected → ∀ i < s.halfOpenCount, s.halfOpenList i ≠ v.tcb) :
    TcpInv lim R (s.setSocket k v) := by
  have hk : ∀ k', (s.setSocket k v).sockets k' = if k' = k then v else s.sockets k' :=
    fun k' => Function.update_apply _ _ _ _
  exact { h with
    socket_tcb := fun k' hk' ht => by
      rw [hk] at ht ⊢
      split_ifs at ht ⊢ with hkk
      · exact hkk ▸ hback ht
      · exact h.socket_tcb k' hk' ht
    ground := fun k' hk' ht hg => by
      rw [hk] at ht hg ⊢
      split_ifs at ht hg ⊢ with hkk
      · exact hground ht hg
      · exact h.ground k' hk' ht hg
    created := fun k' hk' ht hc => by
      rw [hk] at ht hc ⊢
      split_ifs at ht hc ⊢ with hkk
      · exact hcreated ht hc
      · exact h.created k' hk' ht hc
    count := h.count }

theorem freeSocket (h : TcpInv lim R s) (k : UInt32) (st : SockState) :
    TcpInv lim R (s.setSocket k ⟨0, st⟩) :=
  h.setSocket (fun hc => absurd rfl hc) (fun hc => absurd rfl hc) fun hc => absurd rfl hc

/-- Memory for a new TCB that only its socket will know. -/
theorem alloc (h : TcpInv lim R s) (hblock : b ∉ s.live) (hnull : b ≠ 0)
    (hnew : t.opened = false ∧ t.socket ≠ 0 ∧ t.state = .listen) :
    TcpInv lim R { s.setTcb b t with live := insert b s.live } := by
  obtain ⟨hopened, hsocket, hstate⟩ := hnew
  have hold : ∀ c ∈ s.live, (s.setTcb b t).tcbs c = s.tcbs c :=
    fun c hc => Function.update_of_ne (fun hcb : c = b => hblock (hcb ▸ hc)) _ _
  have hself : (s.setTcb b t).tcbs b = t := Function.update_self _ _ _
  have hconn : TcpCfg.connections { s.setTcb b t with live := insert b s.live } = s.connections := by
    have hb : ((s.setTcb b t).tcbs b).opened = false := by rw [hself, hopened]
    unfold TcpCfg.connections
    rw [Finset.filter_insert, if_neg (by simp [hb])]
    exact Finset.filter_congr fun c hc => by rw [hold c hc]
  exact {
    null := fun hc => by
      rcases Finset.mem_insert.mp hc with hc | hc
      · exact hnull hc.symm
      · exact h.null hc
    halfOpen_le := h.halfOpen_le
    halfOpen_live := fun i hi => Finset.mem_insert_of_mem (h.halfOpen_live i hi)
    halfOpen_inj := h.halfOpen_inj
    halfOpen_state := fun i hi => by
      show ((s.setTcb b t).tcbs (s.halfOpenList i)).state ≠ .listen
      rw [hold _ (h.halfOpen_live i hi)]
      exact h.halfOpen_state i hi
    nosock_live := fun c hc => Finset.mem_insert_of_mem (h.nosock_live c hc)
    nosock_nodup := h.nosock_nodup
    listener := fun c hc => by
      rw [hold c (h.nosock_live c hc)]
      exact ⟨Finset.mem_insert_of_mem (h.listener c hc).1, (h.listener c hc).2⟩
    no_socket := fun c hc => by
      rw [hold c (h.nosock_live c hc)]
      exact h.no_socket c hc
    not_listen := fun c hc => by
      rw [hold c (h.nosock_live c hc)]
      exact h.not_listen c hc
    head_live := fun c hc => Finset.mem_insert_of_mem (h.head_live c hc)
    head_nodup := h.head_nodup
    socket_tcb := fun k' hk' ht => by
      obtain ⟨hlive, hback⟩ := h.socket_tcb k' hk' ht
      exact ⟨Finset.mem_insert_of_mem hlive, (congrArg Tcb.socket (hold _ hlive)).trans hback⟩
    ground := h.ground
    created := h.created
    count := fun hR => by
      rw [hconn]
      exact h.count hR
    halfOpen_opened := fun hR i hi => by
      show ((s.setTcb b t).tcbs (s.halfOpenList i)).opened = true
      rw [hold _ (h.halfOpen_live i hi)]
      exact h.halfOpen_opened hR i hi
    nosock_opened := fun hR c hc => by
      rw [hold c (h.nosock_live c hc)]
      exact h.nosock_opened hR c hc
    unopened := fun hR c hc hco => by
      rcases Finset.mem_insert.mp hc with rfl | hc
      · rw [hself, hstate]
        exact List.mem_cons_self
      · rw [hold c hc] at hco ⊢
        exact h.unopened hR c hc hco
    unopened_socket := fun hR c hc hco => by
      rcases Finset.mem_insert.mp hc with rfl | hc
      · rw [hself]
        exact hsocket
      · rw [hold c hc] at hco ⊢
        exact h.unopened_socket hR c hc hco }

theorem processCreate (h : TcpInv lim R s) (hk : k ≠ 0) (hblock : b ∉ s.live) :
    TcpInv lim R (s.processCreate k b) := by
  unfold TcpCfg.processCreate
  simp only
  split_ifs with hnull
  · exact h
  · refine (h.alloc (t := _) hblock hnull ⟨rfl, hk, rfl⟩).setSocket (k := k) (v := ⟨b, .ground⟩)
      (fun _ => ⟨Finset.mem_insert_self _ _, ?_⟩) (fun _ _ hc => hblock (h.head_live b hc))
      fun _ _ i hi hc => hblock (Set.mem_of_eq_of_mem (Eq.symm hc) (h.halfOpen_live i hi))
    show (Function.update s.tcbs b _ b).socket = k
    rw [Function.update_self]

/-- The TCB of a socket is not in the list of those without one. -/
theorem not_nosock (h : TcpInv lim R s) (hk : k ≠ 0) (ht : (s.sockets k).tcb ≠ 0) :
    (s.sockets k).tcb ∉ s.nosockTcb :=
  fun hc => hk ((h.socket_tcb k hk ht).2.symm.trans (h.no_socket _ hc))

theorem processBind (h : TcpInv lim R s) (hk : k ≠ 0) (inUse : Bool) :
    TcpInv lim R (s.processBind k inUse) := by
  unfold TcpCfg.processBind
  simp only
  split_ifs with hgate huse
  · exact h
  · exact h
  · obtain ⟨hground, ht⟩ := not_or.mp hgate
    have hground := not_not.mp hground
    obtain ⟨hlive, hback⟩ := h.socket_tcb k hk ht
    have hstate := h.setState (a := (s.sockets k).tcb) (x := .bound) (by decide) fun _ => by simp
    have hsock := hstate.setSocket (k := k) (v := ⟨(s.sockets k).tcb, .bound⟩)
      (fun _ => ⟨hlive, (setState_socket _ _).trans hback⟩)
      (fun _ hc => SockState.noConfusion hc)
      fun _ _ => h.created k hk ht (hground ▸ SockState.noConfusion)
    exact { hsock with
      head_live := fun c hc => by
        rcases List.mem_cons.mp hc with rfl | hc
        · exact hlive
        · exact hsock.head_live c hc
      head_nodup := h.head_nodup.cons (h.ground k hk ht hground)
      ground := fun k' hk' ht' hg hc => by
        rcases List.mem_cons.mp hc with hc | hc
        · have hkk := (hsock.socket_tcb k' hk' ht').2.symm.trans
            (congrArg (fun c => ((s.setState (s.sockets k).tcb .bound).tcbs c).socket) hc)
          rw [setState_socket, hback] at hkk
          rw [hkk] at hg
          exact SockState.noConfusion ((congrArg StreamSocket.state
            (Function.update_self k _ s.sockets)).symm.trans hg)
        · exact hsock.ground k' hk' ht' hg hc
      count := hsock.count }

theorem of_not (h : TcpInv lim False s) (hR : ¬ R) : TcpInv lim R s :=
  { h with
    count := fun hR' => absurd hR' hR
    halfOpen_opened := fun hR' => absurd hR' hR
    nosock_opened := fun hR' => absurd hR' hR
    unopened := fun hR' => absurd hR' hR
    unopened_socket := fun hR' => absurd hR' hR }

theorem connCount (h : TcpInv lim False s) (n : UInt32) :
    TcpInv lim False { s with connCount := n } :=
  { h with count := False.elim }

/-- A TCB that is opened now. -/
theorem openTcb (h : TcpInv lim R s) (hlive : a ∈ s.live) (hopened : t.opened = true)
    (hsocket : t.socket = (s.tcbs a).socket) (hlisten : t.listenTcb = (s.tcbs a).listenTcb)
    (hnosock : a ∉ s.nosockTcb) (hhalf : ∀ i < s.halfOpenCount, s.halfOpenList i ≠ a)
    (hunopened : R → (s.tcbs a).opened = false) :
    TcpInv lim R (TcpCfg.setTcb { s with connCount := s.connCount + 1 } a t) := by
  -- what `opened` says does not matter for the lists
  have hbase := (h.weaken.connCount (s.connCount + 1)).setTcb_lists hsocket hlisten
    fun _ => Or.inr ⟨hnosock, hhalf⟩
  have htcbs : ∀ c, (TcpCfg.setTcb { s with connCount := s.connCount + 1 } a t).tcbs c =
      if c = a then t else s.tcbs c := setTcb_tcbs
  exact { hbase with
    count := fun hR => by
      have hnot : a ∉ s.connections := by
        intro hc
        exact absurd ((hunopened hR).symm.trans (Finset.mem_filter.mp hc).2) Bool.noConfusion
      have hconn : TcpCfg.connections (TcpCfg.setTcb { s with connCount := s.connCount + 1 } a t) =
          insert a s.connections := by
        ext c
        have hmem : c ∈ TcpCfg.connections (TcpCfg.setTcb { s with connCount := s.connCount + 1 } a t)
            ↔ c ∈ s.live ∧ (if c = a then t else s.tcbs c).opened = true := by
          rw [← htcbs]
          exact Finset.mem_filter
        rw [hmem, Finset.mem_insert]
        split_ifs with hca
        · simp [hca, hlive, hopened]
        · simp [hca, TcpCfg.connections]
      rw [hconn]
      refine connCount_insert hnot (fun hc => ?_) (h.count hR)
      rcases Finset.mem_insert.mp hc with hc | hc
      · exact h.null (hc ▸ hlive)
      · exact h.null (Finset.mem_of_mem_filter _ hc)
    halfOpen_opened := fun hR i hi => by
      rw [htcbs]
      split_ifs
      · exact hopened
      · exact h.halfOpen_opened hR i hi
    nosock_opened := fun hR c hc => by
      rw [htcbs]
      split_ifs
      · exact hopened
      · exact h.nosock_opened hR c hc
    unopened := fun hR c hc hco => by
      rw [htcbs] at hco ⊢
      split_ifs at hco ⊢
      · exact absurd (hopened.symm.trans hco) Bool.noConfusion
      · exact h.unopened hR c hc hco
    unopened_socket := fun hR c hc hco => by
      rw [htcbs] at hco ⊢
      split_ifs at hco ⊢
      · exact absurd (hopened.symm.trans hco) Bool.noConfusion
      · exact h.unopened_socket hR c hc hco }

theorem processOpen (h : TcpInv lim R s) (hk : k ≠ 0) (active tcpsecure : Bool) (unset : UInt32)
    (result : OpenResult)
    (hregular : R → result = .opened ∧ (s.tcbs (s.sockets k).tcb).opened = false) :
    TcpInv lim R (s.processOpen k active tcpsecure unset result) := by
  unfold TcpCfg.processOpen
  by_cases hgate : (s.sockets k).state ≠ .bound ∨ (s.sockets k).tcb = 0
  · simp only [if_pos hgate]
    exact h
  simp only [if_neg hgate]
  obtain ⟨hbound, ht⟩ := not_or.mp hgate
  have hbound := not_not.mp hbound
  obtain ⟨hlive, hback⟩ := h.socket_tcb k hk ht
  have hnosock := h.not_nosock hk ht
  have hhalf := h.created k hk ht (hbound ▸ SockState.noConfusion)
  have hcount := h.weaken.connCount (s.connCount + 1)
  cases result with
  | refused =>
    have hR : ¬ R := fun hR => OpenResult.noConfusion (hregular hR).1
    refine of_not ?_ hR
    exact hcount.setTcb rfl rfl rfl Or.inl False.elim
  | noClock =>
    have hR : ¬ R := fun hR => OpenResult.noConfusion (hregular hR).1
    refine of_not ?_ hR
    exact hcount.setTcb rfl rfl rfl (fun _ => Or.inr ⟨hnosock, hhalf⟩) False.elim
  | hostUnreach =>
    have hR : ¬ R := fun hR => OpenResult.noConfusion (hregular hR).1
    refine of_not ?_ hR
    exact hcount.setTcb rfl rfl rfl (fun _ => Or.inr ⟨hnosock, hhalf⟩) False.elim
  | opened =>
    have hunopened := fun hR => (hregular hR).2
    cases active with
    | true =>
      simp only [if_true]
      refine opens ?_ _
      exact h.openTcb hlive rfl rfl rfl hnosock hhalf hunopened
    | false =>
      simp only [Bool.false_eq_true, if_false]
      refine setSocket ?_ (fun _ => ⟨hlive, ?_⟩) (fun _ hc => SockState.noConfusion hc)
        fun _ _ => hhalf
      · exact h.openTcb hlive rfl rfl rfl hnosock hhalf hunopened
      · show (Function.update s.tcbs (s.sockets k).tcb _ (s.sockets k).tcb).socket = k
        rw [Function.update_self]
        exact hback

theorem processAccept (h : TcpInv lim R s) (k newsock : UInt32) :
    TcpInv lim R (s.processAccept k newsock) := by
  have hpending : ∀ {s : TcpCfg} (_ : TcpInv lim R s) (c : UInt32) (n : UInt16),
      TcpInv lim R (s.setTcb c { s.tcbs c with connPending := n }) := fun h c n =>
    h.setTcb rfl rfl rfl Or.inl fun hR hlive ho => h.unopened hR c hlive ho
  unfold TcpCfg.processAccept
  simp only
  split_ifs with hgate hpend
  · exact h
  · split
    · rename_i c hfind
      have hc := List.mem_of_find?_eq_some hfind
      exact (hpending (hpending h _ _) c _).attach hc newsock
    · exact hpending h _ _
  · exact h.opens _

/-! ## Closing -/

theorem keptState (h : TcpInv lim R s) {x : TcpState} (hst : x ≠ .listen)
    (hopened : R → (s.tcbs a).opened = true) :
    TcpInv lim R (s.setState a x) ∧ Kept s (s.setState a x) :=
  ⟨h.setState hst fun hR => Or.inl (hopened hR), kept_setTcb rfl rfl rfl⟩

theorem effectiveClose (h : TcpInv lim R s) (hopened : R → (s.tcbs a).opened = true) :
    TcpInv lim R (s.effectiveClose a) ∧ Kept s (s.effectiveClose a) := by
  unfold TcpCfg.effectiveClose
  split
  · exact h.keptState (by decide) hopened
  · exact h.keptState (by decide) hopened
  · exact h.keptState (by decide) hopened
  · exact ⟨h, Kept.refl s⟩

theorem processClose (h : TcpInv lim R s) (hlive : a ∈ s.live)
    (hopened : R → (s.tcbs a).opened = true) (allSent : Bool) :
    TcpInv lim R (s.processClose a allSent) ∧ Kept s (s.processClose a allSent) := by
  obtain ⟨hrel, hkrel, -⟩ := h.processRelease hlive hopened
  obtain ⟨hclose, hkclose, -⟩ := h.closeRelease hlive false hopened
  have hfin : TcpInv lim R (s.setTcb a { s.tcbs a with finToSend := true }) :=
    h.setTcb rfl rfl rfl Or.inl fun hR hlive ho => h.unopened hR a hlive ho
  have hkfin : Kept s (s.setTcb a { s.tcbs a with finToSend := true }) := kept_setTcb rfl rfl rfl
  obtain ⟨heff, hkeff⟩ := hfin.effectiveClose (a := a)
    fun hR => (hkfin.opened a).trans (hopened hR)
  have hsent : TcpInv lim R (if allSent then
        (s.setTcb a { s.tcbs a with finToSend := true }).effectiveClose a
      else s.setTcb a { s.tcbs a with finToSend := true }) ∧
      Kept s (if allSent then (s.setTcb a { s.tcbs a with finToSend := true }).effectiveClose a
        else s.setTcb a { s.tcbs a with finToSend := true }) := by
    cases allSent with
    | true => exact ⟨heff, hkfin.trans hkeff⟩
    | false => exact ⟨hfin, hkfin⟩
  unfold TcpCfg.processClose
  simp only
  split
  · exact ⟨h, Kept.refl s⟩
  split
  · exact ⟨hrel, hkrel⟩
  split
  · exact ⟨h, Kept.refl s⟩
  split
  · exact ⟨hclose, hkclose⟩
  · exact ⟨hclose, hkclose⟩
  · exact ⟨hrel, hkrel⟩
  · exact hsent
  · exact hsent
  · exact hsent
  · exact ⟨h, Kept.refl s⟩

theorem processAbort (h : TcpInv lim R s) (hlive : a ∈ s.live)
    (hopened : R → (s.tcbs a).opened = true) :
    TcpInv lim R (s.processAbort a) ∧ Kept s (s.processAbort a) := by
  obtain ⟨hrel, hkrel, -⟩ := h.processRelease hlive hopened
  have hclose := fun failed => h.closeRelease hlive failed hopened
  unfold TcpCfg.processAbort
  simp only
  split_ifs with hvalid
  · exact ⟨h, Kept.refl s⟩
  · split
    · exact ⟨(hclose false).1, (hclose false).2.1⟩
    · exact ⟨hrel, hkrel⟩
    · exact ⟨hrel, hkrel⟩
    · exact ⟨(hclose true).1, (hclose true).2.1⟩

/-- The TCB that is left without its socket was opened. -/
theorem dropSocket (h : TcpInv lim R s) (hback : (s.tcbs a).socket = k)
    (hopened : R → (s.tcbs a).opened = true) : TcpInv lim R (s.dropSocket a k) := by
  unfold TcpCfg.dropSocket
  simp only
  split_ifs with hvalid
  · have hfree := h.freeSocket k .ground
    have htcbs : ∀ b, (s.setTcb a { s.tcbs a with socket := 0 }).tcbs b =
        if b = a then { s.tcbs a with socket := 0 } else s.tcbs b := setTcb_tcbs
    have hl : ∀ b, ((s.setTcb a { s.tcbs a with socket := 0 }).tcbs b).listenTcb =
        (s.tcbs b).listenTcb := setTcb_field Tcb.listenTcb rfl
    have hst : ∀ b, ((s.setTcb a { s.tcbs a with socket := 0 }).tcbs b).state =
        (s.tcbs b).state := setTcb_field Tcb.state rfl
    have ho : ∀ b, ((s.setTcb a { s.tcbs a with socket := 0 }).tcbs b).opened =
        (s.tcbs b).opened := setTcb_field Tcb.opened rfl
    have hsockets : ∀ k', ((s.setTcb a { s.tcbs a with socket := 0 }).setSocket k
        ⟨0, .ground⟩).sockets k' = (s.setSocket k ⟨0, .ground⟩).sockets k' := fun _ => rfl
    exact { hfree with
      halfOpen_state := fun i hi hc => h.halfOpen_state i hi ((hst _).symm.trans hc)
      listener := fun b hb => ⟨Set.mem_of_eq_of_mem (hl b) (h.listener b hb).1,
        fun hc => (h.listener b hb).2
          (Set.mem_of_eq_of_mem (s := {c | c ∈ s.nosockTcb}) (hl b).symm hc)⟩
      no_socket := fun b hb => by
        refine (congrArg Tcb.socket (htcbs b)).trans ?_
        split_ifs
        · rfl
        · exact h.no_socket b hb
      not_listen := fun b hb hc => h.not_listen b hb ((hst b).symm.trans hc)
      socket_tcb := fun k' hk' ht => by
        have hback' := hfree.socket_tcb k' hk' ht
        refine ⟨hback'.1, (congrArg Tcb.socket (htcbs _)).trans ?_⟩
        rw [if_neg]
        · exact hback'.2
        · -- its socket is another one
          intro hc
          have hkk : k' = k :=
            hback'.2.symm.trans ((congrArg (fun b => (s.tcbs b).socket) hc).trans hback)
          exact ht (congrArg StreamSocket.tcb
            ((congrArg _ hkk).trans (Function.update_self k _ s.sockets)))
      count := fun hR => (h.count hR).trans (congrArg _
        (connections_congr s (s.setTcb a { s.tcbs a with socket := 0 }) rfl ho).symm)
      halfOpen_opened := fun hR i hi => (ho _).trans (h.halfOpen_opened hR i hi)
      nosock_opened := fun hR b hb => (ho b).trans (h.nosock_opened hR b hb)
      unopened := fun hR b hb hbo =>
        Set.mem_of_eq_of_mem (s := {st | st ∈ [TcpState.listen, .bound, .closed]}) (hst b)
          (h.unopened hR b hb ((ho b).symm.trans hbo))
      unopened_socket := fun hR b hb hbo => by
        have hbo' := (ho b).symm.trans hbo
        have hba : b ≠ a := by
          rintro rfl
          exact absurd ((hopened hR).symm.trans hbo') Bool.noConfusion
        intro hc
        exact h.unopened_socket hR b hb hbo'
          ((congrArg Tcb.socket ((htcbs b).trans (if_neg hba))).symm.trans hc) }
  · exact h.freeSocket k .ground

theorem shutdown (h : TcpInv lim R s) (hk : k ≠ 0) (abort allSent : Bool)
    (hregular : R → (s.sockets k).tcb ≠ 0 → (s.tcbs (s.sockets k).tcb).opened = true) :
    TcpInv lim R (s.shutdown k abort allSent) := by
  unfold TcpCfg.shutdown
  simp only
  by_cases ht : (s.sockets k).tcb = 0
  · rw [if_pos ht]
    exact h.freeSocket k .ground
  rw [if_neg ht]
  obtain ⟨hlive, hback⟩ := h.socket_tcb k hk ht
  have hopened := fun hR => hregular hR ht
  have hnosock := h.not_nosock hk ht
  cases abort with
  | true =>
    obtain ⟨h', hkept⟩ := h.processAbort hlive hopened
    exact h'.dropSocket ((hkept.socket _ hnosock).trans hback)
      fun hR => (hkept.opened _).trans (hopened hR)
  | false =>
    obtain ⟨h', hkept⟩ := h.processClose hlive hopened allSent
    exact h'.dropSocket ((hkept.socket _ hnosock).trans hback)
      fun hR => (hkept.opened _).trans (hopened hR)

/-! ## Segments and timers -/

theorem progress (h : TcpInv lim R s) (hopened : R → (s.tcbs a).opened = true) (st : TcpState) :
    TcpInv lim R (s.progress a st) := by
  unfold TcpCfg.progress
  split_ifs with hsync
  · refine h.setState ?_ fun hR => Or.inl (hopened hR)
    rintro rfl
    exact Bool.noConfusion hsync
  · exact h

/-- A connection is established: it may find the request that waits for it. -/
theorem establish (h : TcpInv lim R s) (hopened : R → (s.tcbs a).opened = true) (st : TcpState) :
    TcpInv lim R ((s.returnOpen a).progress a st) :=
  (h.returnOpen a).progress
    (fun hR => ((kept_returnOpen h.nosock_nodup a).opened a).trans (hopened hR)) st

theorem processListen (h : TcpInv lim R s) (ha : a ∈ s.live) (hlisten : (s.tcbs a).state = .listen)
    (g : SegmentEvent) (hblock : g.block ∉ (s.makeRoom lim g).live) :
    TcpInv lim R (s.processListen lim a g) := by
  obtain ⟨h', hkept, hapart, hroom⟩ := h.makeRoom g
  have ha' := hapart a ⟨ha, fun hc => h.not_listen a hc hlisten,
    fun i hi hc => h.halfOpen_state i hi (hc ▸ hlisten)⟩
  unfold TcpCfg.processListen
  simp only
  split_ifs with hdrop hmax hnull
  · exact h
  · exact h'
  · exact h'
  · exact h'.cloneTcb ha'.1 ha'.2.1 hblock hnull hroom g.now

theorem opened_of_state (h : TcpInv lim R s) (hlive : a ∈ s.live)
    (hst : (s.tcbs a).state ∉ [TcpState.listen, .bound, .closed]) (hR : R) :
    (s.tcbs a).opened = true := by
  by_contra hc
  exact hst (h.unopened hR a hlive (Bool.not_eq_true _ ▸ hc))

theorem processSynSent (h : TcpInv lim R s) (hlive : a ∈ s.live)
    (hopened : R → (s.tcbs a).opened = true) (g : SegmentEvent) :
    TcpInv lim R (s.processSynSent a g) := by
  have hrec := h.keptState (a := a) (x := .synReceived) (by decide) hopened
  have hopened' := fun hR => (hrec.2.opened a).trans (hopened hR)
  have hest := hrec.1.keptState (a := a) (x := .established) (by decide) hopened'
  unfold TcpCfg.processSynSent
  simp only
  split_ifs
  · exact h
  · exact (h.closeRelease hlive true hopened).1
  · exact h
  · exact hest.1.establish (fun hR => (hest.2.opened a).trans (hopened' hR)) g.progress
  · exact hrec.1
  · exact h

/-- What `TCB_HALF_OPEN_DROP` keeps of TCBs. -/
theorem halfOpenDrop_tcbs (h : TcpInv lim R s) (a : UInt32) : (s.halfOpenDrop a).tcbs = s.tcbs := by
  obtain ⟨n, l, heq, -⟩ := halfOpenDrop_spec h.halfOpen_inj a
  rw [heq]

theorem processAck (h : TcpInv lim R s) (hlive : a ∈ s.live) (g : SegmentEvent) :
    TcpInv lim R (s.processAck a g) := by
  have hopened := h.opened_of_state hlive
  unfold TcpCfg.processAck
  split
  · rename_i hst
    have hopened := hopened (by rw [hst]; decide)
    have hest := h.keptState (a := a) (x := .established) (by decide) hopened
    split_ifs
    · refine (hest.1.halfOpenDrop a).establish (fun hR => ?_) g.progress
      rw [halfOpenDrop_tcbs hest.1]
      exact (hest.2.opened a).trans (hopened hR)
    · exact h
  · rename_i hst
    exact h.progress (hopened (by rw [hst]; decide)) g.progress
  · rename_i hst
    exact h.progress (hopened (by rw [hst]; decide)) g.progress
  · rename_i hst
    exact h.progress (hopened (by rw [hst]; decide)) g.progress
  · rename_i hst
    exact h.progress (hopened (by rw [hst]; decide)) g.progress
  · rename_i hst
    exact h.progress (hopened (by rw [hst]; decide)) g.progress
  · rename_i hst
    split_ifs
    · exact (h.closeRelease hlive false (hopened (by rw [hst]; decide))).1
    · exact h
  · exact h

/-- A closed TCB without a socket was opened. -/
theorem closeUnused (h : TcpInv lim R s) (hlive : a ∈ s.live) :
    TcpInv lim R (if ((s.closeTcb a true).tcbs a).socket = 0 then
      (s.closeTcb a true).processRelease a else s.closeTcb a true) := by
  have hclose := h.closeTcb a true
  have hlive' : a ∈ (s.closeTcb a true).live := by
    rw [closeTcb_live]
    exact hlive
  split_ifs with hsocket
  · refine (hclose.processRelease hlive' fun hR => ?_).1
    by_contra hc
    exact hclose.unopened_socket hR a hlive' (Bool.not_eq_true _ ▸ hc) hsocket
  · exact hclose

theorem processDefault (h : TcpInv lim R s) (hlive : a ∈ s.live) (g : SegmentEvent)
    (hregular : R → (s.tcbs a).opened = true ∨ ¬ (g.acceptable ∧ g.rst)) :
    TcpInv lim R (s.processDefault a g) := by
  unfold TcpCfg.processDefault
  split
  · exact h
  rename_i hacc
  split
  · rename_i hrst
    split
    · exact h
    · refine (h.closeRelease hlive true fun hR => ?_).1
      rcases hregular hR with hopened | hnot
      · exact hopened
      · exact absurd ⟨not_not.mp hacc, hrst⟩ hnot
  split
  · split
    · exact h
    · exact h.closeUnused hlive
  split
  · exact h.processAck hlive g
  · exact h

theorem sendTimeout (h : TcpInv lim R s) (hlive : a ∈ s.live) : TcpInv lim R (s.sendTimeout a) := by
  unfold TcpCfg.sendTimeout
  split
  · exact h.closeUnused hlive
  · exact h

theorem timeWaitExpired (h : TcpInv lim R s) (hlive : a ∈ s.live) :
    TcpInv lim R (s.timeWaitExpired a) := by
  unfold TcpCfg.timeWaitExpired
  split_ifs with hst
  · exact (h.closeRelease hlive false (h.opened_of_state hlive (by rw [hst.2]; decide))).1
  · exact h

theorem dataSent (h : TcpInv lim R s) (hlive : a ∈ s.live) : TcpInv lim R (s.dataSent a) := by
  have hopened := h.opened_of_state hlive
  unfold TcpCfg.dataSent TcpCfg.effectiveClose
  split
  · split
    · rename_i hst
      exact (h.keptState (by decide) (hopened (by rw [hst]; decide))).1
    · rename_i hst
      exact (h.keptState (by decide) (hopened (by rw [hst]; decide))).1
    · rename_i hst
      exact (h.keptState (by decide) (hopened (by rw [hst]; decide))).1
    · exact h
  · exact h

end TcpInv

/-! ## Runs -/

/-- No open fails or is repeated, and neither a request nor a reset releases a TCB that was
never opened. -/
def TcbEvent.Regular (s : TcpCfg) : TcbEvent → Prop
  | .openTcb k _ _ _ result => result = .opened ∧ (s.tcbs (s.sockets k).tcb).opened = false
  | .shutdown k _ _ => (s.sockets k).tcb ≠ 0 → (s.tcbs (s.sockets k).tcb).opened = true
  | .segment a g => (s.tcbs a).opened = true ∨ ¬ (g.acceptable ∧ g.rst)
  | _ => True

theorem TcpInv.step {lim : TcpLimits} {R : Prop} {s : TcpCfg} {e : TcbEvent} (h : TcpInv lim R s)
    (he : e.Possible lim s) (hregular : R → e.Regular s) : TcpInv lim R (s.step lim e) := by
  cases e with
  | create k block => exact h.processCreate he.1 he.2
  | bind k inUse => exact h.processBind he inUse
  | openTcb k active tcpsecure unset result =>
    exact h.processOpen he active tcpsecure unset result hregular
  | accept k newsock => exact h.processAccept k newsock
  | shutdown k abort allSent => exact h.shutdown he abort allSent hregular
  | segment a g =>
    have hlive := h.head_live a he.1
    unfold TcpCfg.step TcpCfg.servicePacket
    simp only
    split
    · exact h
    · exact h
    · rename_i hst
      exact h.processListen hlive hst g he.2
    · rename_i hst
      exact h.processSynSent hlive (h.opened_of_state hlive (by rw [hst]; decide)) g
    · exact h.processDefault hlive g hregular
  | dataSent a => exact h.dataSent he
  | timeWaitExpired a => exact h.timeWaitExpired he
  | sendTimeout a => exact h.sendTimeout he

theorem TcpReached.inv {lim : TcpLimits} {P : TcpCfg → TcbEvent → Prop} {R : Prop} {s : TcpCfg}
    (hs : TcpReached lim P s) (hregular : R → ∀ s e, P s e → e.Regular s) : TcpInv lim R s := by
  induction hs with
  | init tcbs sockets halfOpenList =>
    exact {
      null := Finset.notMem_empty 0
      halfOpen_le := Nat.zero_le _
      halfOpen_live := fun i hi => absurd hi (Nat.not_lt_zero i)
      halfOpen_inj := fun i hi => absurd hi (Nat.not_lt_zero i)
      halfOpen_state := fun i hi => absurd hi (Nat.not_lt_zero i)
      nosock_live := fun a ha => absurd ha List.not_mem_nil
      nosock_nodup := List.nodup_nil
      listener := fun a ha => absurd ha List.not_mem_nil
      no_socket := fun a ha => absurd ha List.not_mem_nil
      not_listen := fun a ha => absurd ha List.not_mem_nil
      head_live := fun a ha => absurd ha List.not_mem_nil
      head_nodup := List.nodup_nil
      socket_tcb := fun k _ ht => absurd rfl ht
      ground := fun k _ ht => absurd rfl ht
      created := fun k _ ht => absurd rfl ht
      count := fun _ => rfl
      halfOpen_opened := fun _ i hi => absurd hi (Nat.not_lt_zero i)
      nosock_opened := fun _ a ha => absurd ha List.not_mem_nil
      unopened := fun _ a ha => absurd ha (Finset.notMem_empty a)
      unopened_socket := fun _ a ha => absurd ha (Finset.notMem_empty a) }
  | step hs he hP ih => exact ih.step he fun hR => hregular hR _ _ hP

/-- In every run the half-open entries are distinct TCBs in memory, and so are the TCBs that
wait for a socket. The number of connections is right when all events are regular. -/
theorem tcbs_accounted (lim : TcpLimits) (P : TcpCfg → TcbEvent → Prop) (s : TcpCfg)
    (hs : TcpReached lim P s) :
    ((∀ s e, P s e → e.Regular s) → s.connCount.toNat = s.connections.card) ∧
    (∀ i < s.halfOpenCount, s.halfOpenList i ∈ s.live) ∧
    (∀ i < s.halfOpenCount, ∀ j < s.halfOpenCount,
      s.halfOpenList i = s.halfOpenList j → i = j) ∧
    s.halfOpenCount ≤ lim.maxHalfOpen ∧ (∀ a ∈ s.nosockTcb, a ∈ s.live) ∧ s.nosockTcb.Nodup := by
  have h : TcpInv lim (∀ s e, P s e → e.Regular s) s := hs.inv id
  exact ⟨h.count, h.halfOpen_live, h.halfOpen_inj, h.halfOpen_le, h.nosock_live, h.nosock_nodup⟩

/-- No TCB and no socket yet. -/
def freshTcpCfg : TcpCfg :=
  initialTcpCfg (fun _ => ⟨false, .listen, false, false, 0, 0, 0, 0, false⟩)
    (fun _ => ⟨0, .ground⟩) fun _ => 0

def synSegment : SegmentEvent := ⟨false, true, false, true, true, true, false, .listen, 0, 0, 200⟩

/-- A listener gets a SYN: two connections, one of them half open. -/
theorem tcbs_accounted_listener :
    let lim : TcpLimits := ⟨4, 0⟩
    let s := ((((freshTcpCfg.step lim (.create 1 100)).step lim (.bind 1 false)).step lim
      (.openTcb 1 false false 0 .opened)).step lim (.segment 100 synSegment))
    s.connections.card = 2 ∧ s.halfOpenCount = 1 ∧ s.connCount.toNat = s.connections.card ∧
      (∀ i < s.halfOpenCount, s.halfOpenList i ∈ s.live) ∧ ∀ a ∈ s.nosockTcb, a ∈ s.live := by
  intro lim s
  have h0 : TcpReached lim (fun s e => e.Regular s) freshTcpCfg := .init _ _ _
  have h1 := h0.step (e := .create 1 100) (by decide) trivial
  have h2 := h1.step (e := .bind 1 false) (by decide) trivial
  have h3 := h2.step (e := .openTcb 1 false false 0 .opened) (by decide) ⟨rfl, by decide⟩
  have h4 := h3.step (e := .segment 100 synSegment) (by decide) (Or.inl (by decide))
  have h := tcbs_accounted lim _ s h4
  exact ⟨by decide, by decide, h.1 fun _ _ hr => hr, h.2.1, h.2.2.2.2.1⟩

/-- A socket that is bound and closed takes the number of connections below zero, and an open
that is refused is counted. -/
theorem tcbs_miscounted :
    let lim : TcpLimits := ⟨4, 0⟩
    let s := (freshTcpCfg.step lim (.create 1 100)).step lim (.bind 1 false)
    let closed := s.step lim (.shutdown 1 false true)
    let refused := s.step lim (.openTcb 1 true false 0 .refused)
    TcpReached lim (fun _ _ => True) closed ∧ closed.connCount = 4294967295 ∧
      closed.connections = ∅ ∧
    TcpReached lim (fun _ _ => True) refused ∧ refused.connCount = 1 ∧
      refused.connections = ∅ := by
  intro lim s closed refused
  have h0 : TcpReached lim (fun _ _ => True) freshTcpCfg := .init _ _ _
  have h1 := h0.step (e := .create 1 100) (by decide) trivial
  have h2 := h1.step (e := .bind 1 false) (by decide) trivial
  exact ⟨h2.step (e := .shutdown 1 false true) (by decide) trivial, by decide, by decide,
    h2.step (e := .openTcb 1 true false 0 .refused) (by decide) trivial, by decide, by decide⟩

end Rtcs
end Mqx
