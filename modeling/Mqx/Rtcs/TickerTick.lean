import Mathlib.Algebra.BigOperators.Group.Finset.Basic
import Mathlib.Algebra.Order.BigOperators.Group.Finset
import Mathlib.Tactic.Linarith
import Mathlib.Tactic.Ring
import Mqx.Rtcs.TickerCalls

/-!
# The tick

The loop of the tick server fires the timers whose deadlines have come, and leaves a queue that
counts from the time of the tick.
-/

namespace Mqx
namespace Rtcs

/-! ## 32-bit times -/

theorem uint32_toNat {x : ℤ} (h : 0 ≤ x) (h' : x < 2 ^ 32) : (uint32 x).toNat = x.toNat := by
  unfold uint32
  rw [Int.emod_eq_of_lt h h', UInt32.toNat_ofNat', Nat.mod_eq_of_lt (by omega)]

theorem uint32_sub (x y : ℤ) : uint32 x - uint32 y = uint32 (x - y) := by
  apply UInt32.toNat.inj
  unfold uint32
  rw [UInt32.toNat_sub]
  simp only [UInt32.toNat_ofNat']
  omega

theorem int32_uint32 {x : ℤ} (h : 0 ≤ x) (h' : x < 2 ^ 31) : int32 (uint32 x) = x := by
  unfold int32
  rw [uint32_toNat h (by omega), if_pos (by omega)]
  omega

theorem uint32_lt {x y : ℤ} (hx : 0 ≤ x) (hx' : x < 2 ^ 32) (hy : 0 ≤ y) (hy' : y < 2 ^ 32) :
    uint32 x < uint32 y ↔ x < y := by
  rw [UInt32.lt_iff_toNat_lt, uint32_toNat hx hx', uint32_toNat hy hy']
  omega

namespace Ticker

open PointerList DeltaQueue
open Function (update)

variable {s s' : Ticker} {lists : ℕ → List ℕ} {D : ℕ → ℤ} {i q : ℕ} {l r : List ℕ} {b d T : ℤ}

/-- What the calls ask of the timers: reload times that fit and done lists of their own. -/
def Sane (s : Ticker) (q : ℕ) : Prop :=
  ∀ i, (0 ≤ s.reload i ∧ s.reload i < 2 ^ 31) ∧ s.donelist i ≠ q

theorem SameTimers.sane (h : SameTimers s s') (hs : s.Sane q) : s'.Sane q := by
  intro i
  rw [h.reload, h.donelist]
  exact hs i

/-- The deadline after a tick at `T`: a cyclic timer skips the periods that have passed. -/
def nextDeadline (T d reload : ℤ) : ℤ :=
  if d ≤ T ∧ 0 < reload then d + ((T - d) / reload + 1) * reload else d

theorem nextDeadline_later {x : ℤ} (h : T < d) : nextDeadline T d x = d :=
  if_neg fun hc => by omega

theorem nextDeadline_oneshot : nextDeadline T d 0 = d := if_neg fun hc => by omega

/-- One period of a cyclic timer. -/
theorem nextDeadline_add {x : ℤ} (hd : d ≤ T) (hx : 0 < x) :
    nextDeadline T (d + x) x = nextDeadline T d x := by
  have hdue : nextDeadline T d x = d + ((T - d) / x + 1) * x := if_pos ⟨hd, hx⟩
  rw [hdue]
  by_cases hdx : d + x ≤ T
  · have hdiv : (T - d) / x = (T - (d + x)) / x + 1 := by
      rw [← Int.add_mul_ediv_right _ _ hx.ne']
      congr 1
      ring
    have hlater : nextDeadline T (d + x) x = d + x + ((T - (d + x)) / x + 1) * x :=
      if_pos ⟨hdx, hx⟩
    rw [hlater, hdiv]
    ring
  · rw [nextDeadline_later (by omega), Int.ediv_eq_zero_of_lt (by omega) (by omega)]
    ring

theorem lt_nextDeadline {x : ℤ} (hx : 0 < x) : T < nextDeadline T d x := by
  unfold nextDeadline
  by_cases hd : d ≤ T
  · rw [if_pos ⟨hd, hx⟩]
    have hmod := Int.emod_lt_of_pos (T - d) hx
    have hdiv := Int.mul_ediv_add_emod (T - d) x
    have hring : ((T - d) / x + 1) * x = x * ((T - d) / x) + x := by ring
    rw [hring]
    omega
  · rw [if_neg fun hc => hd hc.1]
    omega

/-! ## How long the loop runs -/

/-- The rounds a timer may still take part in. -/
def rounds (T b d : ℤ) : ℕ := max (T - d + 1).toNat (if b < T then 1 else 0)

theorem rounds_le {x : ℤ} (h : b ≤ x) : rounds T x d ≤ rounds T b d := by
  unfold rounds
  split_ifs <;> omega

theorem rounds_add {x : ℤ} (hd : d ≤ T) (hx : 0 < x) : rounds T d (d + x) < rounds T b d := by
  unfold rounds
  split_ifs <;> omega

theorem rounds_pos (hd : d ≤ T) : 0 < rounds T b d := by
  unfold rounds
  split_ifs <;> omega

theorem rounds_eq_zero (h : rounds T b d = 0) : T < d ∧ T ≤ b := by
  unfold rounds at h
  split_ifs at h <;> omega

/-- The rounds of all running timers. -/
def load (s : Ticker) (q : ℕ) (T b : ℤ) (D : ℕ → ℤ) : ℕ :=
  ∑ i ∈ Finset.Icc 1 s.timers, if s.curlist i = q then rounds T b (D i) else 0

theorem load_le (hb : b ≤ T) (hD : ∀ i, s.IsTimer i → s.curlist i = q → b ≤ D i) :
    s.load q T b D ≤ ((T - b).toNat + 1) * s.timers := by
  have hterm : ∀ i ∈ Finset.Icc 1 s.timers,
      (if s.curlist i = q then rounds T b (D i) else 0) ≤ (T - b).toNat + 1 := by
    intro i hi
    obtain ⟨hpos, hle⟩ := Finset.mem_Icc.mp hi
    by_cases hcur : s.curlist i = q
    · have hlow := hD i ⟨hpos, hle⟩ hcur
      rw [if_pos hcur]
      unfold rounds
      split_ifs <;> omega
    · rw [if_neg hcur]
      omega
  have hsum := Finset.sum_le_card_nsmul _ _ _ hterm
  rw [Nat.card_Icc, Nat.add_sub_cancel, smul_eq_mul, Nat.mul_comm] at hsum
  exact hsum

/-! ## The loop -/

theorem Timed.head_zero (h : Timed s q b D lists) (hq : q ≠ 0) (hhead : s.head q = 0) :
    lists q = [] := by
  have hrep := h.threaded.rep q hq
  have he : s.head q = (lists q).headD 0 := hrep.head_eq
  cases hl : lists q with
  | nil => rfl
  | cons i r =>
    rw [hl, hhead] at he
    exact absurd (by rw [hl, he]; exact List.mem_cons_self) hrep.null_notMem

theorem Timed.head_cons (h : Timed s q b D lists) (hq : q ≠ 0) (hhead : s.head q ≠ 0) :
    ∃ r, lists q = s.head q :: r := by
  have he : s.head q = (lists q).headD 0 := (h.threaded.rep q hq).head_eq
  cases hl : lists q with
  | nil => exact absurd (by rw [he, hl]; rfl) hhead
  | cons i r => exact ⟨r, by rw [he, hl]; rfl⟩

/-- The first timer is taken from the queue and fires. -/
theorem Timed.fire (h : Timed s q b D lists) (hq : q ≠ 0) (hs : s.Sane q) (hl : lists q = i :: r)
    (now : UInt32) :
    (∃ lists', Timed ((s.popHead q).fire i q now) q (D i)
        (if s.reload i = 0 then D else update D i (D i + s.reload i)) lists') ∧
      SameTimers s ((s.popHead q).fire i q now) ∧
      ((s.popHead q).fire i q now).curlist =
        if s.reload i = 0 then update s.curlist i (s.donelist i) else s.curlist := by
  have hmem : i ∈ lists q := by simp [hl]
  obtain ⟨hi, hcur⟩ := (h.threaded.mem q hq i).mp hmem
  obtain ⟨hpop, hsame, hcur', hdelay⟩ := h.popHead hq hl
  obtain ⟨⟨hreload, hreload'⟩, hdone⟩ := hs i
  have hi' : (s.popHead q).IsTimer i := by rwa [IsTimer, hsame.timers]
  have hidle : (s.popHead q).curlist i = 0 := by rw [hcur', Function.update_self]
  have hcopy : (s.popHead q).reload i = s.reload i := congrFun hsame.reload i
  unfold Ticker.fire
  rw [hcopy, if_neg (by omega)]
  by_cases h0 : s.reload i = 0
  · rw [if_neg (by omega), if_pos h0, if_pos h0]
    have hexp := hpop.expire hi' hidle (by rwa [hsame.donelist])
    refine ⟨hexp.1, hsame.trans hexp.2.1, ?_⟩
    rw [hexp.2.2, hsame.donelist, hcur', Function.update_idem]
  · rw [if_pos (by omega), if_neg h0, if_neg h0]
    obtain ⟨hqueue, hsame', hcurs⟩ := hpop.schedule (t := { s.popHead q with
      count := update (s.popHead q).count i ((s.popHead q).count i + 1)
      delay := update (s.popHead q).delay i (s.reload i)
      absTo := update (s.popHead q).absTo i (now + uint32 (s.reload i)) })
      hq hi' hidle rfl rfl rfl rfl hreload hreload'
    refine ⟨hqueue, ?_, ?_⟩
    · exact hsame.trans ⟨hsame'.donelist, hsame'.reload, hsame'.lasttime, hsame'.timers⟩
    · refine hcurs.trans ?_
      rw [hcur', Function.update_idem, ← hcur, Function.update_eq_self]

/-- The deadlines after one timer has fired. -/
theorem nextDeadline_fired (h : D i ≤ T) (hi : 0 ≤ s.reload i) (y : ℕ) :
    nextDeadline T ((if s.reload i = 0 then D else update D i (D i + s.reload i)) y) (s.reload y) =
      nextDeadline T (D y) (s.reload y) := by
  by_cases h0 : s.reload i = 0
  · rw [if_pos h0]
  · rw [if_neg h0, Function.update_apply]
    by_cases hy : y = i
    · rw [if_pos hy, hy, nextDeadline_add h (by omega)]
    · rw [if_neg hy]

theorem load_fire (hi : s.IsTimer i) (hcur : s.curlist i = q) (hb : b ≤ D i) (hD : D i ≤ T)
    (hreload : 0 ≤ s.reload i) (hdone : s.donelist i ≠ q) (htimers : s'.timers = s.timers)
    (hcur' : s'.curlist = if s.reload i = 0 then update s.curlist i (s.donelist i) else s.curlist) :
    s'.load q T (D i) (if s.reload i = 0 then D else update D i (D i + s.reload i)) <
      s.load q T b D := by
  unfold load
  rw [htimers]
  have hmem : i ∈ Finset.Icc 1 s.timers := Finset.mem_Icc.mpr ⟨hi.1, hi.2⟩
  refine Finset.sum_lt_sum (fun y _ => ?_) ⟨i, hmem, ?_⟩
  · by_cases h0 : s.reload i = 0
    · rw [hcur', if_pos h0, if_pos h0, Function.update_apply]
      have hle := rounds_le (d := D y) (T := T) hb
      by_cases hy : y = i
      · rw [if_pos hy, if_neg hdone]
        exact Nat.zero_le _
      · rw [if_neg hy]
        split_ifs
        · exact hle
        · exact le_refl 0
    · rw [hcur', if_neg h0, if_neg h0, Function.update_apply]
      by_cases hy : y = i
      · rw [if_pos hy, hy, if_pos hcur, if_pos hcur]
        exact (rounds_add hD (by omega)).le
      · rw [if_neg hy]
        split_ifs
        · exact rounds_le hb
        · exact le_refl 0
  · rw [if_pos hcur]
    by_cases h0 : s.reload i = 0
    · rw [hcur', if_pos h0, Function.update_self, if_neg hdone]
      exact rounds_pos hD
    · rw [hcur', if_neg h0, if_pos hcur, if_neg h0, Function.update_self]
      exact rounds_add hD (by omega)

/-- What a tick at `T` does: the one-shot timers that are due go to their done lists. -/
structure Ticked (s s' : Ticker) (q : ℕ) (T : ℤ) (D : ℕ → ℤ) : Prop where
  queue : ∃ lists, Timed s' q T (fun i => nextDeadline T (D i) (s.reload i)) lists
  same : SameTimers s s'
  curlist : ∀ i, s.IsTimer i → s'.curlist i =
    if s.curlist i = q ∧ D i ≤ T ∧ s.reload i = 0 then s.donelist i else s.curlist i

/-- No running timer is due. -/
theorem Timed.ticked (h : Timed s q b D lists) (hq : q ≠ 0) (hs' : Timed s' q T D lists)
    (hlater : ∀ i ∈ lists q, T < D i) (hsame : SameTimers s s') (hcur : s'.curlist = s.curlist) :
    Ticked s s' q T D where
  queue := by
    have hD : ∀ i ∈ lists q, nextDeadline T (D i) (s.reload i) = D i := fun i hi =>
      nextDeadline_later (hlater i hi)
    refine ⟨lists, hs'.threaded, hs'.coded.congr (fun _ _ => rfl) hD, fun i hi => ?_⟩
    rw [hD i hi]
    exact hs'.near i hi
  same := hsame
  curlist i hi := by
    rw [hcur, if_neg]
    rintro ⟨hc, hdue, -⟩
    have hlt := hlater i ((h.threaded.mem q hq i).mpr ⟨hi, hc⟩)
    omega

theorem tickLoop_spec (hq : q ≠ 0) (now : UInt32) (n : ℕ) (elapsed : UInt32) (reply : Bool)
    (h : Timed s q b D lists) (hs : s.Sane q) (hn : s.load q T b D ≤ n) (hb : b ≤ T)
    (hT : T - b < 2 ^ 32) (helapsed : elapsed = uint32 (T - b)) :
    Ticked s (tickLoop q now n s elapsed reply).1 q T D := by
  induction n generalizing s b D lists elapsed reply with
  | zero =>
    -- the rounds are used up: the queue is empty or counts from the tick already
    have hdone : ∀ i ∈ lists q, T < D i ∧ T ≤ b := by
      intro i hi
      obtain ⟨htimer, hcur⟩ := (h.threaded.mem q hq i).mp hi
      have hzero := (Finset.sum_eq_zero_iff.mp (Nat.le_zero.mp hn)) i
        (Finset.mem_Icc.mpr ⟨htimer.1, htimer.2⟩)
      rw [if_pos hcur] at hzero
      exact rounds_eq_zero hzero
    refine h.ticked hq ⟨h.threaded, ?_, fun i hi => ?_⟩ (fun i hi => (hdone i hi).1)
      (SameTimers.refl s) rfl
    · cases hl : lists q with
      | nil => trivial
      | cons i r =>
        have hbT : b = T := le_antisymm hb (hdone i (by simp [hl])).2
        rw [← hl, ← hbT]
        exact h.coded
    · have hnear := h.near i hi
      omega
  | succ n ih =>
    unfold tickLoop
    simp only
    by_cases hhead : s.head q = 0
    · rw [if_pos hhead]
      have hnil := h.head_zero hq hhead
      refine h.ticked hq ⟨h.threaded, ?_, ?_⟩ ?_ (SameTimers.refl s) rfl
      · rw [hnil]
        trivial
      · simp [hnil]
      · simp [hnil]
    · rw [if_neg hhead]
      obtain ⟨r, hl⟩ := h.head_cons hq hhead
      generalize hi : s.head q = i at hl ⊢
      have hcoded := h.coded
      rw [hl, coded_cons] at hcoded
      obtain ⟨hbD, hδ, -⟩ := hcoded
      have hmem : i ∈ lists q := by simp [hl]
      have hnear := h.near i hmem
      have hlt : elapsed < uint32 (s.delay i) ↔ T < D i := by
        rw [helapsed, hδ, uint32_lt (by omega) hT (by omega) (by omega)]
        omega
      by_cases hdue : elapsed < uint32 (s.delay i)
      · -- the first timer has not run down: none has
        rw [if_pos hdue]
        have hTD := hlt.mp hdue
        have hleft : int32 (uint32 (s.delay i) - elapsed) = D i - T := by
          rw [helapsed, uint32_sub, hδ, int32_uint32 (by omega) (by omega)]
          omega
        have hnodup := (h.threaded.rep q hq).nodup
        rw [hl] at hnodup
        have hlater : ∀ y ∈ lists q, T < D y := by
          intro y hy
          have hcoded := h.coded
          rw [hl] at hy hcoded
          rcases List.mem_cons.mp hy with rfl | hy
          · exact hTD
          · exact lt_of_lt_of_le hTD (hcoded.2.2.le hy)
        have hcoded := h.coded
        rw [hl] at hcoded
        refine h.ticked hq ⟨⟨h.threaded.rep, h.threaded.mem⟩, ?_, fun y hy => ?_⟩ hlater
          ⟨rfl, rfl, rfl, rfl⟩ rfl
        · rw [hl]
          refine hcoded.rebase (x := T) (fun y hy => ?_) (fun y hy => ?_) fun y hy => ?_
          · obtain rfl : i = y := by simpa using hy
            exact hTD.le
          · obtain rfl : i = y := by simpa using hy
            show update s.delay i _ i = _
            rw [Function.update_self, hleft, hδ]
            omega
          · refine Function.update_of_ne ?_ _ _
            rintro rfl
            exact (List.nodup_cons.mp hnodup).1 hy
        · have hy' := h.near y hy
          omega
      · rw [if_neg hdue]
        have hDT : D i ≤ T := not_lt.mp fun hc => hdue (hlt.mpr hc)
        obtain ⟨htimer, hcur⟩ := (h.threaded.mem q hq i).mp hmem
        obtain ⟨⟨lists', hfire⟩, hsame, hcur'⟩ := h.fire hq hs hl now
        have hload := load_fire htimer hcur hbD hDT (hs i).1.1 (hs i).2 hsame.timers hcur'
        obtain ⟨hqueue, hsame', hcurs⟩ := ih (elapsed - uint32 (s.delay i)) true hfire
          (hsame.sane hs) (by omega) hDT (by omega)
          (by rw [helapsed, uint32_sub, hδ]; congr 1; omega)
        refine ⟨?_, hsame.trans hsame', fun y hy => ?_⟩
        · obtain ⟨lists'', hlast⟩ := hqueue
          refine ⟨lists'', ?_⟩
          rw [hsame.reload] at hlast
          simpa only [nextDeadline_fired hDT (hs i).1.1] using hlast
        · rw [hcurs y (by rwa [IsTimer, hsame.timers]), hcur', hsame.donelist, hsame.reload]
          by_cases h0 : s.reload i = 0
          · rw [if_pos h0, if_pos h0, Function.update_apply]
            by_cases hyi : y = i
            · rw [if_pos hyi, if_neg fun hc => (hs i).2 hc.1, if_pos ⟨hyi ▸ hcur, hyi ▸ hDT, hyi ▸ h0⟩,
                hyi]
            · rw [if_neg hyi]
          · rw [if_neg h0, if_neg h0, Function.update_apply]
            by_cases hyi : y = i
            · rw [hyi, if_neg fun hc => h0 hc.2.2, if_neg fun hc => h0 hc.2.2]
            · rw [if_neg hyi]

/-- `TCP_Tick_server`, the last tick having been at `b`. -/
theorem tick_spec (hq : q ≠ 0) (h : Timed s q b D lists) (hs : s.Sane q)
    (hlast : s.lasttime = uint32 b) (hb : b ≤ T) (hT : T - b < 2 ^ 32) :
    Ticked { s with lasttime := uint32 T } (s.tick q (uint32 T)).1 q T D := by
  have helapsed : uint32 T - s.lasttime = uint32 (T - b) := by rw [hlast, uint32_sub]
  have hrounds : (uint32 T - s.lasttime).toNat = (T - b).toNat := by
    rw [helapsed, uint32_toNat (by omega) hT]
  have h' := h.congr (t := { s with lasttime := uint32 T }) rfl rfl rfl fun _ _ => rfl
  have hload := load_le (s := { s with lasttime := uint32 T }) (D := D) (q := q) hb fun i hi hcur =>
    h.coded.le ((h.threaded.mem q hq i).mpr ⟨hi, hcur⟩)
  rw [← hrounds] at hload
  exact tickLoop_spec hq (uint32 T) _ _ false h' hs hload hb hT helapsed

end Ticker
end Rtcs
end Mqx
