import Mathlib.Order.Interval.Finset.Nat
import Mqx.Library.BitCount

/-!
# Reassembly of IPv4 datagrams

Model of `ip_reasm.c` for the fragments of one key (source, destination,
protocol and identification); the list of datagrams is only searched for the
key. A datagram keeps its bytes in blocks of 256, reached through a table of
direct blocks and four indirect ones, and infers from three counters that it is
complete.
-/

namespace Mqx
namespace Rtcs

open BitCount

/-- `IPREASM_BLK`: 32 bits for the 8-byte units that hold data, and the bytes. -/
structure ReasmBlk where
  busyint : ℕ
  data : ℕ → UInt8

/-- `IP_DGRAM`, without key, list links and timer. -/
structure IpDgram where
  header : List UInt8
  totlen : ℕ
  curlen : ℕ
  maxlen : ℕ
  indir : ℕ → Option (ℕ → Option ReasmBlk)
  direct : ℕ → Option ReasmBlk

/-- A received fragment: its header, the masked `FRAGMENT` field, `IP_FRAG_MF`
and the payload. -/
structure Fragment where
  header : List UInt8
  offset : ℕ
  mf : Bool
  data : List UInt8

/-- Which allocations of one call succeed. A fresh data block comes with what was
in memory before. -/
structure ReasmAlloc where
  dgram : Bool
  indir : ℕ → Bool
  blk : ℕ → Option (ℕ → UInt8)
  bpcb : Bool
  outpcb : Bool

/-- What a call of `IP_reasm` hands back; `fault` is a read through a null
pointer. -/
inductive ReasmOut where
  | nothing
  | dgram (header payload : List UInt8)
  | fault

section model

-- `IPREASM_NB_DIRECT`, which depends on the size of `IP_DGRAM`.
variable (nd : ℕ)

/-- The data block with a number, direct or indirect. -/
def IpDgram.blk? (d : IpDgram) (nb : ℕ) : Option ReasmBlk :=
  if nb < nd then d.direct nb
  else (d.indir ((nb - nd) / 64)).bind fun indidx => indidx ((nb - nd) % 64)

/-- Storing a data block; the indirect block it belongs to exists. -/
def IpDgram.setBlk (d : IpDgram) (nb : ℕ) (blk : ReasmBlk) : IpDgram :=
  if nb < nd then { d with direct := Function.update d.direct nb (some blk) }
  else
    { d with
      indir := Function.update d.indir ((nb - nd) / 64) ((d.indir ((nb - nd) / 64)).map
        fun indidx => Function.update indidx ((nb - nd) % 64) (some blk)) }

/-- A new indirect block, with all its pointers null. -/
def IpDgram.addIndir (d : IpDgram) (ni : ℕ) : IpDgram :=
  { d with indir := Function.update d.indir ni (some fun _ => none) }

/-- The end of `IPREASM_blk_get`: the block is there or is allocated. -/
def blkGetOrAlloc (m : ReasmAlloc) (d : IpDgram) (nb : ℕ) : IpDgram × Option ReasmBlk :=
  match d.blk? nd nb with
  | some blk => (d, some blk)
  | none =>
    match m.blk nb with
    | some garbage => (d.setBlk nd nb ⟨0, garbage⟩, some ⟨0, garbage⟩)
    | none => (d, none)

/-- `IPREASM_blk_get`. -/
def ipreasmBlkGet (m : ReasmAlloc) (d : IpDgram) (offset : ℕ) : IpDgram × Option ReasmBlk :=
  let nb := offset / 256
  if nb < nd then blkGetOrAlloc nd m d nb
  else
    let ni := (nb - nd) / 64
    if 4 ≤ ni then (d, none)
    else if (d.indir ni).isNone then
      if m.indir ni then blkGetOrAlloc nd m (d.addIndir ni) nb else (d, none)
    else blkGetOrAlloc nd m d nb

/-- How much of the data the block takes. -/
def writeLen (offset : ℕ) (data : List UInt8) : ℕ :=
  if 256 < offset % 256 + data.length then 256 - offset % 256 else data.length

/-- `mask = (2 << (bitoffset+numbits-1)) - (1 << bitoffset)`. -/
def unitMask (offset len : ℕ) : ℕ :=
  let bitoffset := (offset % 256) >>> 3
  let numbits := (len + 7) >>> 3
  (2 <<< (bitoffset + numbits - 1) - 1 <<< bitoffset) % 2 ^ 32

/-- `IPREASM_blk_write`; returns the number of bytes written. -/
def ipreasmBlkWrite (d : IpDgram) (blk : ReasmBlk) (offset : ℕ) (data : List UInt8) :
    IpDgram × ℕ :=
  let blkoffset := offset % 256
  let len := writeLen offset data
  let mask := unitMask offset len
  let numbits := countDown 32 (mask &&& blk.busyint) ((len + 7) >>> 3)
  let blk' : ReasmBlk :=
    { busyint := blk.busyint ||| mask
      data := fun i =>
        if blkoffset ≤ i ∧ i < blkoffset + len then data.getD (i - blkoffset) 0 else blk.data i }
  ({ d.setBlk nd (offset / 256) blk' with
      curlen := d.curlen + numbits <<< 3
      maxlen := if d.maxlen < offset + len then offset + len else d.maxlen }, len)

/-- The loop of `IPREASM_add_frag`, with the number of bytes as a bound on its
turns. -/
def writeBlocks (m : ReasmAlloc) : ℕ → IpDgram → ℕ → List UInt8 → IpDgram
  | 0, d, _, _ => d
  | fuel + 1, d, first, data =>
    if data.length = 0 then d
    else
      match ipreasmBlkGet nd m d first with
      | (d, none) => d
      | (d, some blk) =>
        let w := ipreasmBlkWrite nd d blk first data
        writeBlocks m fuel w.1 (first + w.2) (data.drop w.2)

/-- `IPREASM_add_frag`. -/
def ipreasmAddFrag (m : ReasmAlloc) (d : IpDgram) (f : Fragment) : IpDgram :=
  let first := f.offset <<< 3
  if f.mf = true ∧ f.data.length % 8 ≠ 0 then d
  else
    let d := if f.mf then d else { d with totlen := first + f.data.length }
    let d := if first = 0 then { d with header := f.header } else d
    writeBlocks nd m f.data.length d first f.data

/-- `IPREASM_blk_read_all` from block `nb` on, with the number of blocks left in
the table; `none` is a read through a null pointer. -/
def ipreasmBlkReadAll (d : IpDgram) : ℕ → ℕ → ℕ → Option (List UInt8)
  | 0, _, _ => some []
  | left + 1, nb, len => do
    let blk ← d.blk? nd nb
    if len ≤ 256 then some ((List.range len).map blk.data)
    else
      let rest ← ipreasmBlkReadAll d left (nb + 1) (len - 256)
      some ((List.range 256).map blk.data ++ rest)

/-- A fresh `IP_DGRAM`. -/
def IpDgram.empty : IpDgram := ⟨[], 0, 0, 0, fun _ => none, fun _ => none⟩

/-- `IP_reasm` after the datagram of the key was found. -/
def reasmFragment (m : ReasmAlloc) (d : IpDgram) (f : Fragment) : Option IpDgram × ReasmOut :=
  let d := ipreasmAddFrag nd m d f
  if 0 < d.totlen ∧ d.maxlen = d.totlen ∧ d.maxlen ≤ d.curlen then
    -- `IPREASM_reasm_dgram`
    if m.bpcb then
      match ipreasmBlkReadAll nd d (nd + 256) 0 d.totlen with
      | some payload =>
        if m.outpcb then (none, .dgram d.header payload) else (some d, .nothing)
      | none => (some d, .fault)
    else (some d, .nothing)
  else (some d, .nothing)

/-- `IP_reasm`; the state is the datagram of the key, if there is one. -/
def ipReasm (m : ReasmAlloc) (f : Fragment) (s : Option IpDgram) : Option IpDgram × ReasmOut :=
  match s with
  | some d => reasmFragment nd m d f
  | none => if m.dgram then reasmFragment nd m .empty f else (none, .nothing)

end model

section view

variable {nd nb nb' offset : ℕ} {d d' : IpDgram} {blk : ReasmBlk} {m : ReasmAlloc}

/-- The 8-byte unit holds data. -/
def IpDgram.busy (nd : ℕ) (d : IpDgram) (u : ℕ) : Bool :=
  (d.blk? nd (u / 32)).any fun b => b.busyint.testBit (u % 32)

/-- The byte stored at a position of the datagram. -/
def IpDgram.at (nd : ℕ) (d : IpDgram) (p : ℕ) : UInt8 :=
  ((d.blk? nd (p / 256)).map fun b => b.data (p % 256)).getD 0

/-- The units that hold data. -/
def IpDgram.units (nd : ℕ) (d : IpDgram) : Finset ℕ :=
  (Finset.range (32 * (nd + 256))).filter fun u => d.busy nd u

theorem mem_units {u : ℕ} :
    u ∈ d.units nd ↔ u < 32 * (nd + 256) ∧ d.busy nd u = true := by
  simp [IpDgram.units]

structure ReasmWf (nd : ℕ) (d : IpDgram) : Prop where
  busyint_lt : ∀ nb b, d.blk? nd nb = some b → b.busyint < 2 ^ 32
  indir_lt : ∀ ni, (d.indir ni).isSome → ni < 4

/-- The table has a place for the block. -/
def Reachable (nd : ℕ) (d : IpDgram) (nb : ℕ) : Prop :=
  nb < nd ∨ (d.indir ((nb - nd) / 64)).isSome

theorem blk?_reachable (h : d.blk? nd nb = some blk) : Reachable nd d nb := by
  unfold IpDgram.blk? at h
  split_ifs at h with hlt
  · exact .inl hlt
  · right
    cases hi : d.indir ((nb - nd) / 64) with
    | none => simp [hi] at h
    | some _ => rfl

theorem ReasmWf.lt_of_reachable (hwf : ReasmWf nd d) (h : Reachable nd d nb) : nb < nd + 256 := by
  rcases h with h | h
  · omega
  · have := hwf.indir_lt _ h
    omega

theorem blk?_setBlk (h : Reachable nd d nb) :
    (d.setBlk nd nb blk).blk? nd nb' = if nb' = nb then some blk else d.blk? nd nb' := by
  unfold IpDgram.setBlk IpDgram.blk?
  by_cases hlt : nb < nd
  · by_cases hlt' : nb' < nd
    · simp only [hlt, if_true, hlt']
      split_ifs with heq
      · subst heq
        rw [Function.update_self]
      · rw [Function.update_of_ne heq]
    · have hne : nb' ≠ nb := by omega
      simp [hlt, hlt', hne]
  · by_cases hlt' : nb' < nd
    · have hne : nb' ≠ nb := by omega
      simp [hlt, hlt', hne]
    · obtain ⟨indidx, hind⟩ := Option.isSome_iff_exists.mp (h.resolve_left hlt)
      simp only [hlt, if_false, hlt', hind, Option.map_some]
      by_cases hi : (nb' - nd) / 64 = (nb - nd) / 64
      · rw [hi, Function.update_self, Option.bind_some]
        by_cases heq : nb' = nb
        · subst heq
          rw [Function.update_self, if_pos rfl]
        · have hmod : (nb' - nd) % 64 ≠ (nb - nd) % 64 := by omega
          rw [Function.update_of_ne hmod, if_neg heq, hind, Option.bind_some]
      · have hne : nb' ≠ nb := fun heq => hi (by rw [heq])
        rw [Function.update_of_ne hi, if_neg hne]

theorem setBlk_indir_isSome {ni : ℕ} :
    ((d.setBlk nd nb blk).indir ni).isSome = (d.indir ni).isSome := by
  unfold IpDgram.setBlk
  split_ifs with hlt
  · rfl
  · by_cases hi : ni = (nb - nd) / 64
    · subst hi
      simp
    · simp [Function.update_of_ne hi]

theorem setBlk_counters : (d.setBlk nd nb blk).totlen = d.totlen ∧
    (d.setBlk nd nb blk).curlen = d.curlen ∧ (d.setBlk nd nb blk).maxlen = d.maxlen ∧
    (d.setBlk nd nb blk).header = d.header := by
  unfold IpDgram.setBlk
  split_ifs <;> exact ⟨rfl, rfl, rfl, rfl⟩

/-- What getting a block may change: an empty block appears. -/
structure Got (nd : ℕ) (d d' : IpDgram) (nb : ℕ) (r : Option ReasmBlk) : Prop where
  wf : ReasmWf nd d'
  counters : d'.totlen = d.totlen ∧ d'.curlen = d.curlen ∧ d'.maxlen = d.maxlen ∧
    d'.header = d.header
  blk : ∀ b, r = some b → d'.blk? nd nb = some b
  fresh : ∀ b, r = some b → d.blk? nd nb = some b ∨ (d.blk? nd nb = none ∧ b.busyint = 0)
  missed : r = none → d'.blk? nd nb = d.blk? nd nb
  other : ∀ nb', nb' ≠ nb → d'.blk? nd nb' = d.blk? nd nb'

theorem blkGetOrAlloc_got (hwf : ReasmWf nd d) (h : Reachable nd d nb) :
    Got nd d (blkGetOrAlloc nd m d nb).1 nb (blkGetOrAlloc nd m d nb).2 := by
  unfold blkGetOrAlloc
  cases hb : d.blk? nd nb with
  | some b =>
    refine ⟨hwf, ⟨rfl, rfl, rfl, rfl⟩, ?_, ?_, fun _ => rfl, fun _ _ => rfl⟩
    · intro b' hb'
      exact hb.trans hb'
    · intro b' hb'
      exact .inl (hb.trans hb')
  | none =>
    cases hm : m.blk nb with
    | none =>
      refine ⟨hwf, ⟨rfl, rfl, rfl, rfl⟩, ?_, ?_, fun _ => rfl, fun _ _ => rfl⟩
      · intro b hb'
        cases hb'
      · intro b hb'
        cases hb'
    | some garbage =>
      dsimp only
      refine ⟨⟨?_, ?_⟩, setBlk_counters, ?_, ?_, ?_, ?_⟩
      · intro nb' b hb'
        rw [blk?_setBlk h] at hb'
        split_ifs at hb'
        · rw [← Option.some.inj hb']
          exact Nat.two_pow_pos 32
        · exact hwf.busyint_lt nb' b hb'
      · intro ni hni
        rw [setBlk_indir_isSome] at hni
        exact hwf.indir_lt ni hni
      · intro b hb'
        rw [blk?_setBlk h, if_pos rfl, hb']
      · intro b hb'
        rw [← Option.some.inj hb']
        exact .inr ⟨hb, rfl⟩
      · intro hb'
        cases hb'
      · intro nb' hne
        rw [blk?_setBlk h, if_neg hne]

theorem ipreasmBlkGet_got (hwf : ReasmWf nd d) :
    Got nd d (ipreasmBlkGet nd m d offset).1 (offset / 256) (ipreasmBlkGet nd m d offset).2 := by
  have hmiss : Got nd d d (offset / 256) none :=
    ⟨hwf, ⟨rfl, rfl, rfl, rfl⟩, by simp, by simp, fun _ => rfl, fun _ _ => rfl⟩
  simp only [ipreasmBlkGet]
  split_ifs with hlt hni hnone hind
  · exact blkGetOrAlloc_got hwf (.inl hlt)
  · exact hmiss
  · -- An indirect block without blocks changes no block.
    have hblk : ∀ nb', (d.addIndir ((offset / 256 - nd) / 64)).blk? nd nb' = d.blk? nd nb' := by
      intro nb'
      simp only [IpDgram.blk?, IpDgram.addIndir]
      by_cases hi : (nb' - nd) / 64 = (offset / 256 - nd) / 64
      · rw [hi, Function.update_self, Option.isNone_iff_eq_none.mp hnone]
        rfl
      · rw [Function.update_of_ne hi]
    have hwf' : ReasmWf nd (d.addIndir ((offset / 256 - nd) / 64)) := by
      constructor
      · intro nb' b hb
        rw [hblk] at hb
        exact hwf.busyint_lt nb' b hb
      · intro ni hni'
        by_cases hi : ni = (offset / 256 - nd) / 64
        · omega
        · simp only [IpDgram.addIndir, Function.update_of_ne hi] at hni'
          exact hwf.indir_lt ni hni'
    have hgot := blkGetOrAlloc_got (m := m) hwf'
      (.inr (by simp [IpDgram.addIndir]) : Reachable nd _ (offset / 256))
    refine ⟨hgot.wf, hgot.counters, hgot.blk, ?_, ?_, ?_⟩
    · intro b hb
      rw [← hblk]
      exact hgot.fresh b hb
    · intro hb
      rw [← hblk]
      exact hgot.missed hb
    · intro nb' hne
      rw [← hblk]
      exact hgot.other nb' hne
  · exact hmiss
  · refine blkGetOrAlloc_got hwf (.inr ?_)
    cases hi : d.indir ((offset / 256 - nd) / 64) with
    | none => simp [hi] at hnone
    | some _ => rfl

/-- What writing the bytes `l` from position `a` on does. -/
structure Wrote (nd : ℕ) (d d' : IpDgram) (a : ℕ) (l : List UInt8) : Prop where
  wf : ReasmWf nd d'
  kept : d'.totlen = d.totlen ∧ d'.header = d.header
  busy : ∀ u, d'.busy nd u = true ↔ d.busy nd u = true ∨ (a / 8 ≤ u ∧ 8 * u < a + l.length)
  fresh : ∀ i b, l[i]? = some b → d'.at nd (a + i) = b
  old : ∀ p, d.busy nd (p / 8) = true → (p < a ∨ a + l.length ≤ p) → d'.at nd p = d.at nd p
  curlen : d.curlen = 8 * (d.units nd).card → d'.curlen = 8 * (d'.units nd).card
  maxlen : d'.maxlen = if l.length = 0 then d.maxlen else max d.maxlen (a + l.length)

theorem Wrote.append {d₁ d₂ : IpDgram} {a : ℕ} {l l' : List UInt8} (h₁ : Wrote nd d d₁ a l)
    (h₂ : Wrote nd d₁ d₂ (a + l.length) l') (ha : a % 8 = 0) (hl : (a + l.length) % 8 = 0) :
    Wrote nd d d₂ a (l ++ l') := by
  constructor
  · exact h₂.wf
  · exact ⟨h₂.kept.1.trans h₁.kept.1, h₂.kept.2.trans h₁.kept.2⟩
  · intro u
    rw [h₂.busy, h₁.busy, List.length_append, or_assoc]
    apply or_congr_right
    omega
  · intro i b hi
    rcases Nat.lt_or_ge i l.length with hlt | hge
    · rw [List.getElem?_append_left hlt] at hi
      have hbusy : d₁.busy nd ((a + i) / 8) = true := by
        rw [h₁.busy]
        omega
      rw [h₂.old _ hbusy (.inl (by omega))]
      exact h₁.fresh i b hi
    · rw [List.getElem?_append_right hge] at hi
      have := h₂.fresh _ b hi
      rwa [show a + l.length + (i - l.length) = a + i by omega] at this
  · intro p hp hout
    rw [List.length_append] at hout
    have hbusy : d₁.busy nd (p / 8) = true := (h₁.busy _).mpr (.inl hp)
    rw [h₂.old p hbusy (by omega), h₁.old p hp (by omega)]
  · exact fun h => h₂.curlen (h₁.curlen h)
  · rw [h₂.maxlen, h₁.maxlen, List.length_append]
    split_ifs <;> omega

theorem Got.busy_eq {r : Option ReasmBlk} (hgot : Got nd d d' nb r) (u : ℕ) :
    d'.busy nd u = d.busy nd u := by
  unfold IpDgram.busy
  by_cases hu : u / 32 = nb
  · cases r with
    | none => rw [hu, hgot.missed rfl]
    | some b =>
      rw [hu, hgot.blk b rfl]
      rcases hgot.fresh b rfl with h | ⟨h, h0⟩
      · rw [h]
      · simp [h, h0]
  · rw [hgot.other _ hu]

theorem Got.at_eq {r : Option ReasmBlk} {p : ℕ} (hgot : Got nd d d' nb r)
    (hp : d.busy nd (p / 8) = true) : d'.at nd p = d.at nd p := by
  unfold IpDgram.at
  by_cases hu : p / 256 = nb
  · cases r with
    | none => rw [hu, hgot.missed rfl]
    | some b =>
      rcases hgot.fresh b rfl with h | ⟨h, -⟩
      · rw [hu, hgot.blk b rfl, h]
      · rw [IpDgram.busy, show p / 8 / 32 = nb by omega, h] at hp
        cases hp
  · rw [hgot.other _ hu]

theorem Got.units_eq {r : Option ReasmBlk} (hgot : Got nd d d' nb r) : d'.units nd = d.units nd := by
  unfold IpDgram.units
  simp only [hgot.busy_eq]

theorem Got.wrote_nil {r : Option ReasmBlk} {a : ℕ} (hgot : Got nd d d' nb r) (ha : a % 8 = 0) :
    Wrote nd d d' a [] := by
  refine ⟨hgot.wf, ⟨hgot.counters.1, hgot.counters.2.2.2⟩, ?_, by simp, ?_, ?_, ?_⟩
  · intro u
    rw [hgot.busy_eq, List.length_nil]
    constructor
    · exact Or.inl
    · rintro (h | h)
      · exact h
      · omega
  · exact fun p hp _ => hgot.at_eq hp
  · intro hcur
    rw [hgot.counters.2.1, hgot.units_eq, hcur]
  · simpa using hgot.counters.2.2.1

theorem writeLen_spec (offset : ℕ) {data : List UInt8} (hdata : data.length ≠ 0) :
    0 < writeLen offset data ∧ writeLen offset data ≤ data.length ∧
      offset % 256 + writeLen offset data ≤ 256 ∧
      (writeLen offset data = data.length ∨ offset % 256 + writeLen offset data = 256) := by
  unfold writeLen
  split_ifs <;> omega

theorem unitMask_eq {len : ℕ} (hofs : offset % 8 = 0) (hpos : 0 < len)
    (hle : offset % 256 + len ≤ 256) :
    unitMask offset len =
      2 ^ (offset % 256 / 8 + (len + 7) / 8) - 2 ^ (offset % 256 / 8) := by
  have h8 : 2 ^ 3 = 8 := rfl
  have hsucc : (offset % 256 / 8 + (len + 7) / 8 - 1).succ = offset % 256 / 8 + (len + 7) / 8 := by
    omega
  have hle32 : offset % 256 / 8 + (len + 7) / 8 ≤ 32 := by omega
  have hpow := Nat.pow_le_pow_right (Nat.zero_lt_two) hle32
  have hone := Nat.two_pow_pos (offset % 256 / 8)
  simp only [unitMask, Nat.shiftRight_eq_div_pow, Nat.shiftLeft_eq, Nat.one_mul, h8]
  rw [← Nat.pow_succ', hsucc, Nat.mod_eq_of_lt]
  generalize 2 ^ (offset % 256 / 8 + (len + 7) / 8) = x at hpow
  generalize 2 ^ (offset % 256 / 8) = y at hone
  omega

theorem testBit_unitMask {len i : ℕ} (hofs : offset % 8 = 0) (hpos : 0 < len)
    (hle : offset % 256 + len ≤ 256) :
    (unitMask offset len).testBit i = true ↔
      offset % 256 / 8 ≤ i ∧ 8 * i < offset % 256 + len := by
  rw [unitMask_eq hofs hpos hle, testBit_ones, decide_eq_true_eq]
  omega

/-- The units that were counted before: those of the mask that were busy. -/
theorem card_bits_busy {len : ℕ} (hofs : offset % 8 = 0) (hpos : 0 < len)
    (hle : offset % 256 + len ≤ 256) (hblk : d.blk? nd (offset / 256) = some blk)
    (hnb : offset / 256 < nd + 256) :
    (bits 32 (unitMask offset len &&& blk.busyint)).card =
      (d.units nd ∩ Finset.Ico (offset / 8) (offset / 8 + (len + 7) / 8)).card := by
  have hto : ∀ i ∈ bits 32 (unitMask offset len &&& blk.busyint), 32 * (offset / 256) + i ∈
      d.units nd ∩ Finset.Ico (offset / 8) (offset / 8 + (len + 7) / 8) := by
    intro i hi
    simp only [mem_bits, Nat.testBit_and, Bool.and_eq_true, testBit_unitMask hofs hpos hle] at hi
    obtain ⟨hlt, ⟨h₁, h₂⟩, hbusy⟩ := hi
    have hdiv : (32 * (offset / 256) + i) / 32 = offset / 256 := by omega
    have hmod : (32 * (offset / 256) + i) % 32 = i := by omega
    rw [Finset.mem_inter, mem_units, Finset.mem_Ico]
    refine ⟨⟨by omega, ?_⟩, by omega, by omega⟩
    rw [IpDgram.busy, hdiv, hblk, hmod]
    exact hbusy
  have hfrom : ∀ u ∈ d.units nd ∩ Finset.Ico (offset / 8) (offset / 8 + (len + 7) / 8),
      u % 32 ∈ bits 32 (unitMask offset len &&& blk.busyint) ∧ u / 32 = offset / 256 := by
    intro u hu
    rw [Finset.mem_inter, mem_units, Finset.mem_Ico] at hu
    obtain ⟨⟨-, hbusy⟩, h₁, h₂⟩ := hu
    have hdiv : u / 32 = offset / 256 := by omega
    rw [IpDgram.busy, hdiv, hblk] at hbusy
    simp only [mem_bits, Nat.testBit_and, Bool.and_eq_true, testBit_unitMask hofs hpos hle]
    exact ⟨⟨by omega, ⟨by omega, by omega⟩, hbusy⟩, hdiv⟩
  refine Finset.card_nbij' (fun i => 32 * (offset / 256) + i) (fun u => u % 32) hto
    (fun u hu => (hfrom u hu).1) ?_ ?_
  · intro i hi
    have := (mem_bits.mp hi).1
    dsimp only
    omega
  · intro u hu
    have := (hfrom u hu).2
    dsimp only
    omega

/-- One turn of the writing loop, from the block that was found or made. -/
theorem ipreasmBlkWrite_wrote {data : List UInt8} {d₀ : IpDgram}
    (hgot : Got nd d₀ d (offset / 256) (some blk)) (hofs : offset % 8 = 0)
    (hdata : data.length ≠ 0) :
    Wrote nd d₀ (ipreasmBlkWrite nd d blk offset data).1 offset
      (data.take (writeLen offset data)) := by
  obtain ⟨hpos, hle, hle256, -⟩ := writeLen_spec offset hdata
  have hb := hgot.blk blk rfl
  have hreach := blk?_reachable hb
  have hnb := hgot.wf.lt_of_reachable hreach
  have htake : (data.take (writeLen offset data)).length = writeLen offset data := by
    rw [List.length_take, Nat.min_eq_left hle]
  have hcard := card_bits_busy hofs hpos hle256 hb hnb
  have hmask := fun i => testBit_unitMask (i := i) hofs hpos hle256
  generalize hlen : writeLen offset data = len at *
  have hblk : ∀ nb', (ipreasmBlkWrite nd d blk offset data).1.blk? nd nb' =
      if nb' = offset / 256 then some
        { busyint := blk.busyint ||| unitMask offset len
          data := fun i => if offset % 256 ≤ i ∧ i < offset % 256 + len then
            data.getD (i - offset % 256) 0 else blk.data i }
      else d.blk? nd nb' := by
    intro nb'
    rw [← hlen]
    exact blk?_setBlk hreach
  have hmasklt : unitMask offset len < 2 ^ 32 := Nat.mod_lt _ (Nat.two_pow_pos 32)
  have hbusy : ∀ u, (ipreasmBlkWrite nd d blk offset data).1.busy nd u = true ↔
      d.busy nd u = true ∨ (offset / 8 ≤ u ∧ 8 * u < offset + len) := by
    intro u
    unfold IpDgram.busy
    rw [hblk]
    by_cases hu : u / 32 = offset / 256
    · rw [if_pos hu, hu, hb]
      simp only [Option.any_some, Nat.testBit_or, Bool.or_eq_true, hmask]
      apply or_congr_right
      omega
    · rw [if_neg hu]
      constructor
      · exact Or.inl
      · rintro (h | h)
        · exact h
        · omega
  constructor
  · constructor
    · intro nb' b hb'
      rw [hblk] at hb'
      split_ifs at hb'
      · rw [← Option.some.inj hb']
        exact Nat.or_lt_two_pow (hgot.wf.busyint_lt _ _ hb) hmasklt
      · exact hgot.wf.busyint_lt nb' b hb'
    · intro ni hni
      apply hgot.wf.indir_lt
      rw [← setBlk_indir_isSome]
      exact hni
  · exact ⟨setBlk_counters.1.trans hgot.counters.1, setBlk_counters.2.2.2.trans hgot.counters.2.2.2⟩
  · intro u
    rw [hbusy, hgot.busy_eq, htake]
  · intro i b hi
    have hilen : i < len := by
      obtain ⟨hlt, -⟩ := List.getElem?_eq_some_iff.mp hi
      rwa [htake] at hlt
    rw [List.getElem?_take_of_lt hilen] at hi
    unfold IpDgram.at
    have hdiv : (offset + i) / 256 = offset / 256 := by omega
    have hmod : (offset + i) % 256 = offset % 256 + i := by omega
    rw [hblk, hdiv, if_pos rfl, hmod]
    simp only [Option.map_some, Option.getD_some]
    rw [if_pos (by omega), List.getD_eq_getElem?_getD, Nat.add_sub_cancel_left, hi,
      Option.getD_some]
  · intro p hp hout
    rw [htake] at hout
    rw [← hgot.at_eq hp]
    unfold IpDgram.at
    rw [hblk]
    by_cases hu : p / 256 = offset / 256
    · rw [if_pos hu, hu, hb]
      simp only [Option.map_some, Option.getD_some]
      rw [if_neg (by omega)]
    · rw [if_neg hu]
  · intro hcur
    have hunits : (ipreasmBlkWrite nd d blk offset data).1.units nd =
        d.units nd ∪ Finset.Ico (offset / 8) (offset / 8 + (len + 7) / 8) := by
      ext u
      simp only [mem_units, Finset.mem_union, Finset.mem_Ico, hbusy]
      constructor
      · rintro ⟨hu, h | h⟩
        · exact .inl ⟨hu, h⟩
        · exact .inr (by omega)
      · rintro (⟨hu, h⟩ | h)
        · exact ⟨hu, .inl h⟩
        · exact ⟨by omega, .inr (by omega)⟩
    have hcount := Finset.card_union_add_card_inter (d.units nd)
      (Finset.Ico (offset / 8) (offset / 8 + (len + 7) / 8))
    have hsub : (d.units nd ∩ Finset.Ico (offset / 8) (offset / 8 + (len + 7) / 8)).card ≤
        (Finset.Ico (offset / 8) (offset / 8 + (len + 7) / 8)).card :=
      Finset.card_le_card Finset.inter_subset_right
    rw [Nat.card_Ico, Nat.add_sub_cancel_left] at hcount hsub
    have hcurlen : (ipreasmBlkWrite nd d blk offset data).1.curlen =
        d.curlen + 8 * ((len + 7) / 8 -
          (d.units nd ∩ Finset.Ico (offset / 8) (offset / 8 + (len + 7) / 8)).card) := by
      simp only [ipreasmBlkWrite, hlen]
      rw [countDown_eq (Nat.and_lt_two_pow _ (hgot.wf.busyint_lt _ _ hb)), hcard,
        Nat.shiftLeft_eq, Nat.shiftRight_eq_div_pow, Nat.mul_comm]
    rw [hcurlen, hunits, hgot.counters.2.1, hcur, ← hgot.units_eq]
    omega
  · rw [htake, if_neg (by omega), ← hgot.counters.2.2.1]
    simp only [ipreasmBlkWrite, hlen]
    split_ifs <;> omega

/-- Every allocation of the call succeeds. -/
structure ReasmAlloc.Ok (m : ReasmAlloc) : Prop where
  dgram : m.dgram = true
  indir : ∀ ni, m.indir ni = true
  blk : ∀ nb, (m.blk nb).isSome
  bpcb : m.bpcb = true
  outpcb : m.outpcb = true

theorem blkGetOrAlloc_isSome (hm : m.Ok) : (blkGetOrAlloc nd m d nb).2.isSome := by
  unfold blkGetOrAlloc
  cases hb : d.blk? nd nb with
  | some b => rfl
  | none =>
    obtain ⟨garbage, hg⟩ := Option.isSome_iff_exists.mp (hm.blk nb)
    simp [hg]

theorem ipreasmBlkGet_isSome (hm : m.Ok) (hnb : offset / 256 < nd + 256) :
    (ipreasmBlkGet nd m d offset).2.isSome := by
  simp only [ipreasmBlkGet, hm.indir, if_true]
  split_ifs with hlt hni hnone
  · exact blkGetOrAlloc_isSome hm
  · omega
  · exact blkGetOrAlloc_isSome hm
  · exact blkGetOrAlloc_isSome hm

theorem writeBlocks_nil {fuel first : ℕ} : writeBlocks nd m fuel d first [] = d := by
  cases fuel <;> rfl

/-- The writing loop writes the data up to some block, and all of it when memory
does not run out. -/
theorem writeBlocks_wrote {fuel first : ℕ} {data : List UInt8} (hfuel : data.length ≤ fuel)
    (hwf : ReasmWf nd d) (hfirst : first % 8 = 0) :
    ∃ k ≤ data.length, Wrote nd d (writeBlocks nd m fuel d first data) first (data.take k) ∧
      (k = data.length ∨ (first + k) % 8 = 0) ∧
      (m.Ok → first + data.length ≤ 256 * (nd + 256) → k = data.length) := by
  induction fuel generalizing d first data with
  | zero =>
    have hrefl : Got nd d d 0 none :=
      ⟨hwf, ⟨rfl, rfl, rfl, rfl⟩, by simp, by simp, fun _ => rfl, fun _ _ => rfl⟩
    have hnil : data = [] := List.length_eq_zero_iff.mp (Nat.le_zero.mp hfuel)
    subst hnil
    exact ⟨0, le_rfl, hrefl.wrote_nil hfirst, .inl rfl, fun _ _ => rfl⟩
  | succ fuel ih =>
    have hrefl : Got nd d d 0 none :=
      ⟨hwf, ⟨rfl, rfl, rfl, rfl⟩, by simp, by simp, fun _ => rfl, fun _ _ => rfl⟩
    by_cases hdata : data.length = 0
    · have hnil : data = [] := List.length_eq_zero_iff.mp hdata
      subst hnil
      exact ⟨0, le_rfl, hrefl.wrote_nil hfirst, .inl rfl, fun _ _ => rfl⟩
    · have hgot : Got nd d (ipreasmBlkGet nd m d first).1 (first / 256) _ := ipreasmBlkGet_got hwf
      cases hget : ipreasmBlkGet nd m d first with
      | mk d₁ r =>
        rw [hget] at hgot
        cases r with
        | none =>
          have hstop : writeBlocks nd m (fuel + 1) d first data = d₁ := by
            simp [writeBlocks, hdata, hget]
          refine ⟨0, Nat.zero_le _, hstop ▸ hgot.wrote_nil hfirst, .inr (by omega), ?_⟩
          intro hm hfit
          have hsome : (ipreasmBlkGet nd m d first).2.isSome :=
            ipreasmBlkGet_isSome hm (by omega)
          simp [hget] at hsome
        | some blk =>
          have hnext : writeBlocks nd m (fuel + 1) d first data =
              writeBlocks nd m fuel (ipreasmBlkWrite nd d₁ blk first data).1
                (first + writeLen first data) (data.drop (writeLen first data)) := by
            simp only [writeBlocks, if_neg hdata, hget]
            rfl
          have hwrote := ipreasmBlkWrite_wrote hgot hfirst hdata
          obtain ⟨hpos, hle, -, hend⟩ := writeLen_spec first hdata
          rw [hnext]
          generalize writeLen first data = len at *
          rcases hend with hend | hend
          · subst hend
            rw [List.drop_length, writeBlocks_nil]
            exact ⟨data.length, le_rfl, hwrote, .inl rfl, fun _ _ => rfl⟩
          · have halign : (first + len) % 8 = 0 := by omega
            have htake : (data.take len).length = len := by
              rw [List.length_take, Nat.min_eq_left hle]
            have hdrop : (data.drop len).length = data.length - len := List.length_drop
            obtain ⟨k, hk, hrest, hkend, hkok⟩ :=
              ih (show (data.drop len).length ≤ fuel by omega) hwrote.wf halign
            have hjoin : data.take (len + k) = data.take len ++ (data.drop len).take k :=
              List.take_add
            have happ : Wrote nd d (writeBlocks nd m fuel (ipreasmBlkWrite nd d₁ blk first data).1
                (first + len) (data.drop len)) first (data.take (len + k)) := by
              rw [hjoin]
              apply hwrote.append _ hfirst (by rw [htake]; exact halign)
              rw [htake]
              exact hrest
            refine ⟨len + k, by omega, happ, ?_, ?_⟩
            · rcases hkend with hkend | hkend
              · left
                omega
              · right
                rwa [← Nat.add_assoc]
            · intro hm hfit
              have := hkok hm (by omega)
              omega

end view

end Rtcs
end Mqx
