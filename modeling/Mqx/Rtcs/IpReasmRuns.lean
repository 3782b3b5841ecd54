import Mqx.Rtcs.IpReasm

/-!
# Which datagrams are put together

The three counters count 8-byte units. When they agree, every unit of the
datagram was touched by a fragment, and that is every byte of it, except where
a fragment without `IP_FRAG_MF` ended inside a unit.
-/

namespace Mqx
namespace Rtcs

/-- Where the payload of a fragment begins in the datagram, in bytes. -/
def Fragment.first (f : Fragment) : ℕ := 8 * f.offset

/-- Where it ends. -/
def Fragment.stop (f : Fragment) : ℕ := f.first + f.data.length

/-- The byte a fragment has for a position. -/
def Fragment.byte? (f : Fragment) (p : ℕ) : Option UInt8 :=
  if f.first ≤ p then f.data[p - f.first]? else none

/-- The position shares its unit with the end of a last fragment and lies behind
that end. -/
def Fragment.Behind (f : Fragment) (p : ℕ) : Prop :=
  f.mf = false ∧ f.stop ≤ p ∧ p < 8 * ((f.stop + 7) / 8)

section invariant

variable {nd : ℕ} {d d' : IpDgram} {f : Fragment} {m : ReasmAlloc} {hist : List Fragment} {p : ℕ}

/-- The datagram after the fragments `hist` of its key were received. -/
structure ReasmInv (nd : ℕ) (d : IpDgram) (hist : List Fragment) : Prop where
  wf : ReasmWf nd d
  curlen : d.curlen = 8 * (d.units nd).card
  maxlen : ∀ u, d.busy nd u = true → 8 * u < d.maxlen
  bytes : ∀ p, d.busy nd (p / 8) = true →
    (∃ f ∈ hist, f.byte? p = some (d.at nd p)) ∨ ∃ f ∈ hist, f.Behind p
  totlen : d.totlen = 0 ∨ ∃ f ∈ hist, f.mf = false ∧ d.totlen = f.stop

theorem ReasmInv.empty : ReasmInv nd .empty [] := by
  have hblk : ∀ nb, IpDgram.empty.blk? nd nb = none := by
    intro nb
    simp [IpDgram.blk?, IpDgram.empty]
  have hbusy : ∀ u, IpDgram.empty.busy nd u = false := by
    intro u
    simp [IpDgram.busy, hblk]
  refine ⟨⟨?_, ?_⟩, ?_, ?_, ?_, .inl rfl⟩
  · intro nb b hb
    rw [hblk] at hb
    cases hb
  · intro ni hni
    cases hni
  · have hunits : IpDgram.empty.units nd = ∅ := by simp [IpDgram.units, hbusy]
    rw [hunits]
    rfl
  · intro u hu
    rw [hbusy] at hu
    cases hu
  · intro p hp
    rw [hbusy] at hp
    cases hp

theorem ReasmInv.mono {hist' : List Fragment} (h : ReasmInv nd d hist) (hsub : hist ⊆ hist') :
    ReasmInv nd d hist' := by
  refine ⟨h.wf, h.curlen, h.maxlen, ?_, ?_⟩
  · intro p hp
    rcases h.bytes p hp with ⟨f, hf, hb⟩ | ⟨f, hf, hb⟩
    · exact .inl ⟨f, hsub hf, hb⟩
    · exact .inr ⟨f, hsub hf, hb⟩
  · rcases h.totlen with h0 | ⟨f, hf, hrest⟩
    · exact .inl h0
    · exact .inr ⟨f, hsub hf, hrest⟩

theorem Fragment.byte?_eq_some {i : ℕ} {b : UInt8} (hb : f.data[i]? = some b) :
    f.byte? (f.first + i) = some b := by
  rw [Fragment.byte?, if_pos (Nat.le_add_right _ _), Nat.add_sub_cancel_left, hb]

/-- What a received fragment does: nothing when it is refused, else its data are
written up to some unit. -/
theorem ipreasmAddFrag_cases (hwf : ReasmWf nd d) :
    (f.mf = true ∧ f.data.length % 8 ≠ 0 ∧ ipreasmAddFrag nd m d f = d) ∨
    ∃ d₁ k, k ≤ f.data.length ∧ (f.mf = true → f.data.length % 8 = 0) ∧
      (k = f.data.length ∨ (f.first + k) % 8 = 0) ∧
      d₁.totlen = (if f.mf then d.totlen else f.stop) ∧
      d₁.curlen = d.curlen ∧ d₁.maxlen = d.maxlen ∧ (∀ nb, d₁.blk? nd nb = d.blk? nd nb) ∧
      Wrote nd d₁ (ipreasmAddFrag nd m d f) f.first (f.data.take k) ∧
      (m.Ok → f.stop ≤ 256 * (nd + 256) → k = f.data.length) := by
  have hfirst : f.offset <<< 3 = f.first := by
    rw [Nat.shiftLeft_eq, Fragment.first, Nat.mul_comm]
  by_cases href : f.mf = true ∧ f.data.length % 8 ≠ 0
  · exact .inl ⟨href.1, href.2, by simp only [ipreasmAddFrag, if_pos href]⟩
  · right
    generalize hd₀ : (if f.mf then d else { d with totlen := f.first + f.data.length }) = d₀
    generalize hd₁ : (if f.first = 0 then { d₀ with header := f.header } else d₀) = d₁
    have hadd : ipreasmAddFrag nd m d f = writeBlocks nd m f.data.length d₁ f.first f.data := by
      simp only [ipreasmAddFrag, if_neg href, hfirst, hd₀, hd₁]
    have h₁ : d₁.totlen = d₀.totlen ∧ d₁.curlen = d₀.curlen ∧ d₁.maxlen = d₀.maxlen ∧
        d₁.indir = d₀.indir ∧ d₁.direct = d₀.direct := by
      subst hd₁
      split_ifs <;> exact ⟨rfl, rfl, rfl, rfl, rfl⟩
    have h₀ : d₀.totlen = (if f.mf then d.totlen else f.stop) ∧ d₀.curlen = d.curlen ∧
        d₀.maxlen = d.maxlen ∧ d₀.indir = d.indir ∧ d₀.direct = d.direct := by
      subst hd₀
      split_ifs <;> exact ⟨rfl, rfl, rfl, rfl, rfl⟩
    have hblk : ∀ nb, d₁.blk? nd nb = d.blk? nd nb := by
      intro nb
      unfold IpDgram.blk?
      rw [h₁.2.2.2.1, h₁.2.2.2.2, h₀.2.2.2.1, h₀.2.2.2.2]
    have hwf₁ : ReasmWf nd d₁ := by
      constructor
      · intro nb b hb
        exact hwf.busyint_lt nb b (hblk nb ▸ hb)
      · intro ni hni
        rw [h₁.2.2.2.1, h₀.2.2.2.1] at hni
        exact hwf.indir_lt ni hni
    obtain ⟨k, hk, hwrote, hkend, hkok⟩ :=
      writeBlocks_wrote (m := m) le_rfl hwf₁ (show f.first % 8 = 0 by unfold Fragment.first; omega)
    refine ⟨d₁, k, hk, ?_, hkend, h₁.1.trans h₀.1, h₁.2.1.trans h₀.2.1,
      h₁.2.2.1.trans h₀.2.2.1, hblk, hadd ▸ hwrote, hkok⟩
    intro hmf
    by_contra hmod
    exact href ⟨hmf, hmod⟩

theorem ReasmInv.addFrag (h : ReasmInv nd d hist) :
    ReasmInv nd (ipreasmAddFrag nd m d f) (hist ++ [f]) := by
  rcases ipreasmAddFrag_cases (f := f) (m := m) h.wf with
    ⟨-, -, hsame⟩ | ⟨d₁, k, hk, hmf, hkend, htot, hcur, hmax, hblk, hw, -⟩
  · rw [hsame]
    exact h.mono (List.subset_append_left _ _)
  · have hlen : (f.data.take k).length = k := by rw [List.length_take, Nat.min_eq_left hk]
    have hbusy : ∀ u, d₁.busy nd u = d.busy nd u := fun u => by simp only [IpDgram.busy, hblk]
    have hat : ∀ p, d₁.at nd p = d.at nd p := fun p => by simp only [IpDgram.at, hblk]
    have hunits : d₁.units nd = d.units nd := by simp only [IpDgram.units, hbusy]
    have hmem : f ∈ hist ++ [f] := List.mem_append_right _ (List.mem_singleton_self f)
    generalize ipreasmAddFrag nd m d f = d' at hw
    refine ⟨hw.wf, hw.curlen (by rw [hcur, hunits, h.curlen]), ?_, ?_, ?_⟩
    · intro u hu
      rw [hw.busy, hbusy, hlen] at hu
      rw [hw.maxlen, hlen, hmax]
      rcases hu with hu | hu
      · have := h.maxlen u hu
        split_ifs <;> omega
      · rw [if_neg (by unfold Fragment.first at *; omega)]
        omega
    · intro p hp
      rw [hw.busy, hbusy, hlen] at hp
      by_cases hin : f.first ≤ p ∧ p < f.first + k
      · -- The byte was written just now.
        left
        obtain ⟨b, hb⟩ : ∃ b, (f.data.take k)[p - f.first]? = some b :=
          ⟨_, List.getElem?_eq_getElem (by omega)⟩
        have hfresh := hw.fresh (p - f.first) b hb
        rw [Nat.add_sub_cancel' hin.1] at hfresh
        rw [List.getElem?_take_of_lt (by omega)] at hb
        refine ⟨f, hmem, ?_⟩
        rw [hfresh, Fragment.byte?, if_pos hin.1, hb]
      · by_cases hold : d.busy nd (p / 8) = true
        · rw [hw.old p (by rw [hbusy]; exact hold) (by rw [hlen]; omega), hat]
          rcases h.bytes p hold with ⟨g, hg, hb⟩ | ⟨g, hg, hb⟩
          · exact .inl ⟨g, List.mem_append_left _ hg, hb⟩
          · exact .inr ⟨g, List.mem_append_left _ hg, hb⟩
        · -- The unit is new, but the fragment ends inside it.
          right
          refine ⟨f, hmem, ?_⟩
          have hp' := hp.resolve_left hold
          unfold Fragment.Behind Fragment.stop
          unfold Fragment.first at *
          cases hf : f.mf with
          | true =>
            have := hmf hf
            omega
          | false => exact ⟨rfl, by omega, by omega⟩
    · rw [hw.kept.1, htot]
      cases hf : f.mf with
      | true =>
        rw [if_pos rfl]
        rcases h.totlen with h0 | ⟨g, hg, hrest⟩
        · exact .inl h0
        · exact .inr ⟨g, List.mem_append_left _ hg, hrest⟩
      | false =>
        right
        exact ⟨f, hmem, hf, by simp⟩

/-- When the counters agree, every unit of the datagram is busy. -/
theorem ReasmInv.all_busy (h : ReasmInv nd d hist) (hmax : d.maxlen = d.totlen)
    (hcur : d.maxlen ≤ d.curlen) : ∀ u, 8 * u < d.totlen → d.busy nd u = true := by
  have hsub : d.units nd ⊆ Finset.range ((d.totlen + 7) / 8) := by
    intro u hu
    have := h.maxlen u (mem_units.mp hu).2
    rw [Finset.mem_range]
    omega
  have hcard : (Finset.range ((d.totlen + 7) / 8)).card ≤ (d.units nd).card := by
    rw [Finset.card_range]
    have := h.curlen
    omega
  have heq := Finset.eq_of_subset_of_card_le hsub hcard
  intro u hu
  have hmem : u ∈ d.units nd := by
    rw [heq, Finset.mem_range]
    omega
  exact (mem_units.mp hmem).2

theorem ipreasmBlkReadAll_eq {left nb len : ℕ} (hlen : 0 < len) (hle : len ≤ 256 * left)
    (hblk : ∀ p, 256 * nb ≤ p → p < 256 * nb + len → (d.blk? nd (p / 256)).isSome) :
    ipreasmBlkReadAll nd d left nb len =
      some ((List.range len).map fun i => d.at nd (256 * nb + i)) := by
  induction left generalizing nb len with
  | zero => omega
  | succ left ih =>
    obtain ⟨blk, hb⟩ := Option.isSome_iff_exists.mp (hblk (256 * nb) le_rfl (by omega))
    rw [Nat.mul_div_cancel_left _ (by decide : 0 < 256)] at hb
    have hat : ∀ i < 256, d.at nd (256 * nb + i) = blk.data i := by
      intro i hi
      rw [IpDgram.at, show (256 * nb + i) / 256 = nb by omega, hb,
        show (256 * nb + i) % 256 = i by omega]
      rfl
    rw [ipreasmBlkReadAll, hb]
    simp only [Option.bind_eq_bind, Option.bind_some]
    split_ifs with hle256
    · congr 1
      apply List.map_congr_left
      intro i hi
      rw [hat i (by rw [List.mem_range] at hi; omega)]
    · rw [ih (by omega) (by omega) fun p h₁ h₂ => hblk p (by omega) (by omega), Option.bind_some]
      congr 1
      obtain ⟨n, rfl⟩ := Nat.exists_eq_add_of_le (show 256 ≤ len by omega)
      rw [List.range_add, List.map_append, List.map_map, Nat.add_sub_cancel_left]
      congr 1
      · apply List.map_congr_left
        intro i hi
        rw [hat i (List.mem_range.mp hi)]
      · apply List.map_congr_left
        intro i _
        simp only [Function.comp_apply]
        congr 1
        omega

/-- The payload of a datagram that counts as complete. -/
theorem ReasmInv.read_eq (h : ReasmInv nd d hist) (htot : 0 < d.totlen)
    (hmax : d.maxlen = d.totlen) (hcur : d.maxlen ≤ d.curlen) :
    ipreasmBlkReadAll nd d (nd + 256) 0 d.totlen = some ((List.range d.totlen).map (d.at nd)) := by
  have hsome : ∀ p < d.totlen, (d.blk? nd (p / 256)).isSome := by
    intro p hp
    have hbusy := h.all_busy hmax hcur (p / 8) (by omega)
    rw [IpDgram.busy, show p / 8 / 32 = p / 256 by omega] at hbusy
    cases hb : d.blk? nd (p / 256) with
    | none => simp [hb] at hbusy
    | some _ => rfl
  have hlast : d.totlen ≤ 256 * (nd + 256) := by
    obtain ⟨b, hb⟩ := Option.isSome_iff_exists.mp (hsome (d.totlen - 1) (by omega))
    have := h.wf.lt_of_reachable (blk?_reachable hb)
    omega
  rw [ipreasmBlkReadAll_eq htot hlast fun p _ hp => hsome p (by omega)]
  simp

end invariant

/-- The payload that was handed back. -/
def ReasmOut.payload : ReasmOut → Option (List UInt8)
  | .dgram _ payload => some payload
  | _ => none

/-- The states of a key with the fragments received since its datagram was
created. Any allocation may fail, and the timer may expire at any time. -/
inductive ReasmRun (nd : ℕ) : Option IpDgram → List Fragment → Prop
  | start : ReasmRun nd none []
  | arrive {s s' : Option IpDgram} {hist : List Fragment} {f : Fragment} {m : ReasmAlloc}
      {out : ReasmOut} : ReasmRun nd s hist → ipReasm nd m f s = (s', out) →
      ReasmRun nd s' (if s'.isSome then hist ++ [f] else [])
  | expire {s : Option IpDgram} {hist : List Fragment} : ReasmRun nd s hist → ReasmRun nd none []

section runs

variable {nd : ℕ} {d d' : IpDgram} {s s' : Option IpDgram} {f : Fragment} {m : ReasmAlloc}
  {hist : List Fragment} {out : ReasmOut}

/-- The end of `IP_reasm`, once the fragment is stored. -/
theorem reasmFragment_cases (h : ReasmInv nd d hist) :
    ReasmInv nd (ipreasmAddFrag nd m d f) (hist ++ [f]) ∧
    ((reasmFragment nd m d f = (some (ipreasmAddFrag nd m d f), .nothing)) ∨
      (0 < (ipreasmAddFrag nd m d f).totlen ∧
        (ipreasmAddFrag nd m d f).maxlen = (ipreasmAddFrag nd m d f).totlen ∧
        (ipreasmAddFrag nd m d f).maxlen ≤ (ipreasmAddFrag nd m d f).curlen ∧
        reasmFragment nd m d f = (none, .dgram (ipreasmAddFrag nd m d f).header
          ((List.range (ipreasmAddFrag nd m d f).totlen).map
            ((ipreasmAddFrag nd m d f).at nd))))) := by
  have h' : ReasmInv nd (ipreasmAddFrag nd m d f) (hist ++ [f]) := h.addFrag
  refine ⟨h', ?_⟩
  unfold reasmFragment
  generalize ipreasmAddFrag nd m d f = d' at h'
  dsimp only
  split_ifs with hdone hb ho
  · obtain ⟨htot, hmax, hcur⟩ := hdone
    rw [h'.read_eq htot hmax hcur]
    exact .inr ⟨htot, hmax, hcur, rfl⟩
  · rw [h'.read_eq hdone.1 hdone.2.1 hdone.2.2]
    exact .inl rfl
  · exact .inl rfl
  · exact .inl rfl

/-- The datagram a call works on, if there is one. -/
theorem ipReasm_eq (hs : ∀ d, s = some d → ReasmInv nd d hist) (hnil : s = none → hist = []) :
    (∃ d, ReasmInv nd d hist ∧ ipReasm nd m f s = reasmFragment nd m d f) ∨
      (s = none ∧ m.dgram = false ∧ ipReasm nd m f s = (none, .nothing)) := by
  cases s with
  | some d => exact .inl ⟨d, hs d rfl, rfl⟩
  | none =>
    rw [hnil rfl]
    cases hm : m.dgram with
    | true => exact .inl ⟨.empty, .empty, by simp [ipReasm, hm]⟩
    | false => exact .inr ⟨rfl, rfl, by simp [ipReasm, hm]⟩

theorem ReasmRun.invariant (h : ReasmRun nd s hist) :
    (∀ d, s = some d → ReasmInv nd d hist) ∧ (s = none → hist = []) := by
  induction h with
  | start => exact ⟨by simp, fun _ => rfl⟩
  | expire => exact ⟨by simp, fun _ => rfl⟩
  | arrive hrun hstep ih =>
    constructor
    · rintro d rfl
      rcases ipReasm_eq ih.1 ih.2 with ⟨d₀, hinv, heq⟩ | ⟨-, -, heq⟩
      · obtain ⟨hinv', hout | ⟨-, -, -, hout⟩⟩ := reasmFragment_cases hinv
        · rw [heq, hout] at hstep
          obtain ⟨hd, -⟩ := Prod.mk.inj hstep
          rw [← Option.some.inj hd]
          exact hinv'
        · rw [heq, hout] at hstep
          cases hstep
      · rw [heq] at hstep
        cases hstep
    · rintro rfl
      rfl

/-- A datagram that is handed back: no unallocated block is read, and every byte
comes from a fragment or lies behind the end of a last fragment. -/
theorem reasm_bytes (hrun : ReasmRun nd s hist) (hstep : ipReasm nd m f s = (s', out)) :
    out ≠ .fault ∧ ∀ payload, out.payload = some payload →
      (∃ g ∈ hist ++ [f], g.mf = false ∧ payload.length = g.stop) ∧
      ∀ p b, payload[p]? = some b →
        (∃ g ∈ hist ++ [f], g.byte? p = some b) ∨ ∃ g ∈ hist ++ [f], g.Behind p := by
  obtain ⟨hs, hnil⟩ := hrun.invariant
  rcases ipReasm_eq hs hnil with ⟨d, hinv, heq⟩ | ⟨-, -, heq⟩
  · rw [heq] at hstep
    obtain ⟨hinv', hout | ⟨htot, hmax, hcur, hout⟩⟩ := reasmFragment_cases hinv
    · rw [hout] at hstep
      obtain ⟨-, rfl⟩ := Prod.mk.inj hstep
      exact ⟨by simp, by simp [ReasmOut.payload]⟩
    · rw [hout] at hstep
      obtain ⟨-, rfl⟩ := Prod.mk.inj hstep
      refine ⟨by simp, ?_⟩
      intro payload hp
      obtain rfl := Option.some.inj hp
      constructor
      · obtain ⟨g, hg, hmf, hstop⟩ := hinv'.totlen.resolve_left htot.ne'
        exact ⟨g, hg, hmf, by rw [List.length_map, List.length_range, hstop]⟩
      · intro p b hb
        obtain ⟨hlt, rfl⟩ := List.getElem?_eq_some_iff.mp hb
        rw [List.length_map, List.length_range] at hlt
        rw [List.getElem_map, List.getElem_range]
        exact hinv'.bytes p (hinv'.all_busy hmax hcur _ (by omega))
  · rw [heq] at hstep
    obtain ⟨-, rfl⟩ := Prod.mk.inj hstep
    exact ⟨by simp, by simp [ReasmOut.payload]⟩

/-- A fragment of the payload. -/
structure Consistent (payload : List UInt8) (f : Fragment) : Prop where
  bytes : ∀ p b, f.byte? p = some b → payload[p]? = some b
  more : f.mf = true → f.stop < payload.length ∧ f.data.length % 8 = 0
  last : f.mf = false → f.stop = payload.length

/-- The fragments cover the first `len` bytes. -/
def CoverAll (len : ℕ) (fs : List Fragment) : Prop :=
  ∀ p < len, ∃ f ∈ fs, f.first ≤ p ∧ p < f.stop

instance (len : ℕ) (fs : List Fragment) : Decidable (CoverAll len fs) :=
  inferInstanceAs (Decidable (∀ p < len, _))

/-- The arrivals at which the fragments received since the last datagram was
handed back cover it. -/
def completions (len : ℕ) : List Fragment → List Fragment → List Bool
  | _, [] => []
  | hist, f :: fs =>
    if CoverAll len (hist ++ [f]) then true :: completions len [] fs
    else false :: completions len (hist ++ [f]) fs

/-- The calls of `IP_reasm` for fragments that arrive one after the other. -/
def ipReasmAll (nd : ℕ) : Option IpDgram → List (Fragment × ReasmAlloc) → List ReasmOut
  | _, [] => []
  | s, x :: xs => (ipReasm nd x.2 x.1 s).2 :: ipReasmAll nd (ipReasm nd x.2 x.1 s).1 xs

/-- The datagram after fragments of one payload, all of them stored. -/
structure Stored (nd : ℕ) (payload : List UInt8) (d : IpDgram) (hist : List Fragment) : Prop where
  inv : ReasmInv nd d hist
  consistent : ∀ f ∈ hist, Consistent payload f
  totlen : (∃ f ∈ hist, f.mf = false) → d.totlen = payload.length
  busy : ∀ f ∈ hist, ∀ p, f.first ≤ p → p < f.stop → d.busy nd (p / 8) = true
  stop_le : ∀ f ∈ hist, f.data.length ≠ 0 → f.stop ≤ d.maxlen
  maxlen_le : d.maxlen ≤ payload.length

variable {payload : List UInt8}

theorem Stored.empty : Stored nd payload .empty [] :=
  ⟨.empty, by simp, by simp, by simp, by simp, Nat.zero_le _⟩

theorem Consistent.stop_le (h : Consistent payload f) : f.stop ≤ payload.length := by
  cases hf : f.mf with
  | true => exact (h.more hf).1.le
  | false => exact (h.last hf).le

theorem Stored.addFrag (h : Stored nd payload d hist) (hm : m.Ok) (hf : Consistent payload f)
    (hfit : payload.length ≤ 256 * (nd + 256)) :
    Stored nd payload (ipreasmAddFrag nd m d f) (hist ++ [f]) := by
  have hinv : ReasmInv nd (ipreasmAddFrag nd m d f) (hist ++ [f]) := h.inv.addFrag
  have hle := hf.stop_le
  rcases ipreasmAddFrag_cases (f := f) (m := m) h.inv.wf with
    ⟨hmf, hmod, -⟩ | ⟨d₁, k, -, -, -, htot, -, hmax, hblk, hw, hk⟩
  · exact absurd (hf.more hmf).2 hmod
  · obtain rfl := hk hm (hle.trans hfit)
    rw [List.take_length] at hw
    have hbusy : ∀ u, d₁.busy nd u = d.busy nd u := fun u => by simp only [IpDgram.busy, hblk]
    generalize ipreasmAddFrag nd m d f = d' at hw hinv
    have hmem : ∀ g ∈ hist ++ [f], g ∈ hist ∨ g = f := by
      intro g hg
      simpa using hg
    refine ⟨hinv, ?_, ?_, ?_, ?_, ?_⟩
    · intro g hg
      rcases hmem g hg with hg | rfl
      · exact h.consistent g hg
      · exact hf
    · rintro ⟨g, hg, hmf⟩
      rw [hw.kept.1, htot]
      cases hff : f.mf with
      | true =>
        rcases hmem g hg with hg | rfl
        · simpa using h.totlen ⟨g, hg, hmf⟩
        · rw [hmf] at hff
          cases hff
      | false => simpa using hf.last hff
    · intro g hg p h₁ h₂
      rw [hw.busy, hbusy]
      rcases hmem g hg with hg | rfl
      · exact .inl (h.busy g hg p h₁ h₂)
      · right
        unfold Fragment.stop at h₂
        omega
    · intro g hg hne
      rw [hw.maxlen, hmax]
      rcases hmem g hg with hg | rfl
      · have := h.stop_le g hg hne
        split_ifs <;> omega
      · rw [if_neg hne]
        exact le_max_right _ _
    · rw [hw.maxlen, hmax]
      have := h.maxlen_le
      unfold Fragment.stop at hle
      split_ifs <;> omega

/-- The counters agree exactly when the fragments cover the payload. -/
theorem Stored.complete_iff (h : Stored nd payload d hist) (hpos : 0 < payload.length)
    (hfit : payload.length ≤ 256 * (nd + 256)) :
    (0 < d.totlen ∧ d.maxlen = d.totlen ∧ d.maxlen ≤ d.curlen) ↔
      CoverAll payload.length hist := by
  constructor
  · rintro ⟨htot, hmax, hcur⟩ p hp
    obtain ⟨g, hg, hmf, hstop⟩ := h.inv.totlen.resolve_left htot.ne'
    rw [(h.consistent g hg).last hmf] at hstop
    have hbusy := h.inv.all_busy hmax hcur (p / 8) (by omega)
    rcases h.inv.bytes p hbusy with ⟨f, hf, hb⟩ | ⟨f, hf, hmf', hle, -⟩
    · refine ⟨f, hf, ?_⟩
      unfold Fragment.byte? at hb
      split_ifs at hb with hfirst
      obtain ⟨hlt, -⟩ := List.getElem?_eq_some_iff.mp hb
      unfold Fragment.stop
      omega
    · rw [(h.consistent f hf).last hmf'] at hle
      omega
  · intro hcov
    obtain ⟨f, hf, hfirst, hstop⟩ := hcov (payload.length - 1) (by omega)
    have hmf : f.mf = false := by
      rw [← Bool.not_eq_true]
      intro hmf
      have := ((h.consistent f hf).more hmf).1
      omega
    have hne : f.data.length ≠ 0 := by
      unfold Fragment.stop at hstop
      omega
    have htot := h.totlen ⟨f, hf, hmf⟩
    have hge := h.stop_le f hf hne
    rw [(h.consistent f hf).last hmf] at hge
    have hmax : d.maxlen = payload.length := le_antisymm h.maxlen_le hge
    refine ⟨by omega, by omega, ?_⟩
    have hsub : Finset.range ((payload.length + 7) / 8) ⊆ d.units nd := by
      intro u hu
      rw [Finset.mem_range] at hu
      rw [mem_units]
      obtain ⟨g, hg, h₁, h₂⟩ := hcov (8 * u) (by omega)
      have hbusy := h.busy g hg (8 * u) h₁ h₂
      rw [Nat.mul_div_cancel_left _ (by decide : 0 < 8)] at hbusy
      exact ⟨by omega, hbusy⟩
    have hcard := Finset.card_le_card hsub
    rw [Finset.card_range] at hcard
    rw [h.inv.curlen]
    omega

theorem Stored.payload_eq (h : Stored nd payload d hist) (htot : 0 < d.totlen)
    (hmax : d.maxlen = d.totlen) (hcur : d.maxlen ≤ d.curlen) :
    (List.range d.totlen).map (d.at nd) = payload := by
  obtain ⟨g, hg, hmf, hstop⟩ := h.inv.totlen.resolve_left htot.ne'
  rw [(h.consistent g hg).last hmf] at hstop
  apply List.ext_getElem?
  intro p
  rcases Nat.lt_or_ge p payload.length with hp | hp
  · rw [List.getElem?_map, List.getElem?_range (by omega), Option.map_some]
    have hbusy := h.inv.all_busy hmax hcur (p / 8) (by omega)
    rcases h.inv.bytes p hbusy with ⟨f, hf, hb⟩ | ⟨f, hf, hmf', hle, -⟩
    · exact ((h.consistent f hf).bytes p _ hb).symm
    · rw [(h.consistent f hf).last hmf'] at hle
      omega
  · rw [List.getElem?_eq_none (by simpa [hstop] using hp), List.getElem?_eq_none hp]

/-- One call with a fragment of the payload. -/
theorem Stored.step (h : Stored nd payload d hist) (hm : m.Ok) (hf : Consistent payload f)
    (hpos : 0 < payload.length) (hfit : payload.length ≤ 256 * (nd + 256)) :
    Stored nd payload (ipreasmAddFrag nd m d f) (hist ++ [f]) ∧
    reasmFragment nd m d f =
      if CoverAll payload.length (hist ++ [f]) then
        (none, .dgram (ipreasmAddFrag nd m d f).header payload)
      else (some (ipreasmAddFrag nd m d f), .nothing) := by
  have h' := h.addFrag hm hf hfit
  refine ⟨h', ?_⟩
  have hiff := h'.complete_iff hpos hfit
  unfold reasmFragment
  generalize ipreasmAddFrag nd m d f = d' at h' hiff
  dsimp only
  by_cases hcov : CoverAll payload.length (hist ++ [f])
  · obtain ⟨htot, hmax, hcur⟩ := hiff.mpr hcov
    rw [if_pos hcov, if_pos ⟨htot, hmax, hcur⟩, if_pos hm.bpcb, h'.inv.read_eq htot hmax hcur,
      h'.payload_eq htot hmax hcur]
    simp only [hm.outpcb, if_true]
  · rw [if_neg hcov, if_neg (fun h => hcov (hiff.mp h))]

theorem ipReasmAll_payloads {xs : List (Fragment × ReasmAlloc)} (hpos : 0 < payload.length)
    (hfit : payload.length ≤ 256 * (nd + 256))
    (hxs : ∀ x ∈ xs, Consistent payload x.1 ∧ x.2.Ok)
    (hs : (s = none ∧ hist = []) ∨ ∃ d, s = some d ∧ Stored nd payload d hist) :
    (ipReasmAll nd s xs).map ReasmOut.payload =
      (completions payload.length hist (xs.map Prod.fst)).map
        fun b => if b then some payload else none := by
  induction xs generalizing s hist with
  | nil => rfl
  | cons x xs ih =>
    obtain ⟨hf, hm⟩ := hxs x List.mem_cons_self
    have hxs' : ∀ y ∈ xs, Consistent payload y.1 ∧ y.2.Ok :=
      fun y hy => hxs y (List.mem_cons_of_mem _ hy)
    obtain ⟨d, hd, hcall⟩ : ∃ d, Stored nd payload d hist ∧
        ipReasm nd x.2 x.1 s = reasmFragment nd x.2 d x.1 := by
      rcases hs with ⟨rfl, rfl⟩ | ⟨d, rfl, hd⟩
      · exact ⟨.empty, .empty, by simp [ipReasm, hm.dgram]⟩
      · exact ⟨d, hd, rfl⟩
    obtain ⟨hd', hstep⟩ := hd.step hm hf hpos hfit
    simp only [ipReasmAll, completions, List.map_cons, hcall, hstep]
    split_ifs with hcov
    · rw [ih hxs' (.inl ⟨rfl, rfl⟩)]
      rfl
    · rw [ih hxs' (.inr ⟨_, rfl, hd'⟩)]
      rfl

theorem CoverAll.mono {len : ℕ} {fs fs' : List Fragment} (h : CoverAll len fs) (hsub : fs ⊆ fs') :
    CoverAll len fs' := by
  intro p hp
  obtain ⟨f, hf, hrest⟩ := h p hp
  exact ⟨f, hsub hf, hrest⟩

/-- Fragments that cover the datagram hand it back at least once. -/
theorem mem_completions {len : ℕ} {fs : List Fragment} (hne : fs ≠ [])
    (hcov : CoverAll len (hist ++ fs)) : true ∈ completions len hist fs := by
  induction fs generalizing hist with
  | nil => exact absurd rfl hne
  | cons f fs ih =>
    rw [completions]
    split_ifs with hnow
    · exact List.mem_cons_self
    · rw [List.append_cons] at hcov
      refine List.mem_cons_of_mem _ (ih ?_ hcov)
      rintro rfl
      rw [List.append_nil] at hcov
      exact hnow hcov

/-- A fragment that completes the cover hands the datagram back, and none before
it does. -/
theorem completions_concat {len : ℕ} {fs : List Fragment} (hno : ¬ CoverAll len (hist ++ fs))
    (hcov : CoverAll len (hist ++ fs ++ [f])) :
    completions len hist (fs ++ [f]) = List.replicate fs.length false ++ [true] := by
  induction fs generalizing hist with
  | nil =>
    rw [List.append_nil] at hcov
    simp [completions, hcov]
  | cons g fs ih =>
    rw [List.append_cons] at hno
    have hcov' : CoverAll len (hist ++ [g] ++ fs ++ [f]) := by simpa using hcov
    have hnow : ¬ CoverAll len (hist ++ [g]) :=
      fun h => hno (h.mono (List.subset_append_left _ _))
    rw [List.cons_append, completions, if_neg hnow, ih hno hcov']
    rfl

/-- Memory that never runs out; fresh blocks hold zeros. -/
def plenty : ReasmAlloc := ⟨true, fun _ => true, fun _ => some fun _ => 0, true, true⟩

theorem plenty_ok : plenty.Ok := ⟨rfl, fun _ => rfl, fun _ => rfl, rfl, rfl⟩

theorem consistent_replicate {b : UInt8} {len n : ℕ} {mf : Bool} {offset : ℕ}
    (hmore : mf = true → 8 * offset + n < len ∧ n % 8 = 0)
    (hlast : mf = false → 8 * offset + n = len) :
    Consistent (List.replicate len b) ⟨[], offset, mf, List.replicate n b⟩ := by
  have hle : 8 * offset + n ≤ len := by
    cases mf with
    | true => exact (hmore rfl).1.le
    | false => exact (hlast rfl).le
  refine ⟨?_, ?_, ?_⟩
  · intro p c hc
    simp only [Fragment.byte?, Fragment.first, List.getElem?_replicate] at hc ⊢
    split_ifs at hc with hfirst hlt
    rw [if_pos (by omega)]
    exact hc
  · intro hmf
    simpa [Fragment.stop, Fragment.first] using hmore hmf
  · intro hmf
    simpa [Fragment.stop, Fragment.first] using hlast hmf

end runs

end Rtcs
end Mqx
