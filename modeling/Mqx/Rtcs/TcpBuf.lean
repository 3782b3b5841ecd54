import Mathlib.Data.List.Basic
import Mathlib.Data.List.Pairwise
import Mathlib.Tactic.Common
import Mathlib.Tactic.Ring

/-!
# The receive buffer of a TCP connection

Model of `TCP_Copy_to_ring` and `TCP_Copy_to_Rbuffer` in `tcp_buf.c`. Segments
are copied into a circular buffer in any order; a list of chunks says which
positions behind `rcvpos` already hold data.

Offsets and sizes are natural numbers: inside the receive buffer nothing
overflows. The one exception is the offset handed to `TCP_Copy_to_ring`, an
`int32_t`, which is kept as the 32 bits the code has.
-/

namespace Mqx
namespace Rtcs

/-- One run of received positions, counted from `rcvpos`. -/
structure Rchunk where
  used : ℕ
  size : ℕ
  deriving DecidableEq, Repr

/-- The bytes of a ring; only the indices below its size are used. -/
abbrev RingBytes := ℕ → UInt8

/-- The byte a source pointer finds, `i` bytes from the start of the segment. -/
def sourceByte (data : List UInt8) (i : ℤ) : UInt8 :=
  if 0 ≤ i then data.getD i.toNat 0 else 0

/-- `_mem_copy` from `src` bytes behind the start of the segment. -/
def memCopy (data : List UInt8) (src : ℤ) (ring : RingBytes) (dst size : ℕ) : RingBytes :=
  fun i => if dst ≤ i ∧ i < dst + size then sourceByte data (src + ((i : ℤ) - dst)) else ring i

/-- `while (ringofs < 0) ringofs += rsize`, on the 32 bits of `ringofs`. -/
def ringUp (rsize ringofs : UInt32) : UInt32 :=
  if _h : rsize ≠ 0 ∧ 2 ^ 31 ≤ ringofs.toNat then ringUp rsize (ringofs + rsize) else ringofs
termination_by
  if ringofs.toNat < 2 ^ 31 then 0
  else if rsize.toNat < 2 ^ 31 then 2 ^ 32 - ringofs.toNat else ringofs.toNat
decreasing_by
  have hr : rsize.toNat ≠ 0 := fun h0 => _h.1 (UInt32.toNat_inj.mp (by simpa using h0))
  have h₁ := rsize.toNat_lt
  have h₂ := ringofs.toNat_lt
  rw [UInt32.toNat_add]
  split_ifs <;> omega

/-- `while (ringofs >= rsize) ringofs -= rsize`: the comparison is unsigned. -/
def ringDown (rsize ringofs : UInt32) : UInt32 :=
  if _h : rsize ≠ 0 ∧ rsize.toNat ≤ ringofs.toNat then ringDown rsize (ringofs - rsize) else ringofs
termination_by ringofs.toNat
decreasing_by
  have hr : rsize.toNat ≠ 0 := fun h0 => _h.1 (UInt32.toNat_inj.mp (by simpa using h0))
  have hle : rsize ≤ ringofs := UInt32.le_iff_toNat_le.mpr _h.2
  rw [UInt32.toNat_sub_of_le _ _ hle]
  omega

/-- `TCP_Copy_to_ring`; both of its exits return `RTCS_OK`. -/
def tcpCopyToRing (data : List UInt8) (src : ℤ) (size ringofs : ℕ) (ring : RingBytes)
    (rsize : ℕ) : RingBytes :=
  if rsize = 0 then ring
  else
    let ofs := (ringDown (.ofNat rsize) (ringUp (.ofNat rsize) (.ofNat ringofs))).toNat
    let atend := rsize - ofs
    if atend < size then
      memCopy data (src + atend) (memCopy data src ring ofs atend) 0 (size - atend)
    else
      memCopy data src ring ofs size

/-- What `TCP_Copy_to_Rbuffer` reads and writes: the chunks of the connection,
its buffer, and how many unused chunk nodes the TCP layer keeps. -/
structure Rbuffer where
  rcvchunks : List Rchunk
  rcvbuf : RingBytes
  rchunkfree : ℕ

/-- The arguments that stay the same for a connection. -/
structure RcvRing where
  rcvbufsize : ℕ
  rcvpos : ℕ
  rcvbufsize_lt : rcvbufsize < 2 ^ 32

section copy

variable (r : RcvRing) (data : List UInt8)

/-- The merge loop: chunk `h` begins where the section begins, `src` is the
source of its first byte, and `size` is how far the section reaches. -/
def mergeChunks (src : ℤ) (size : ℕ) (h : Rchunk) (ring : RingBytes) :
    List Rchunk → List Rchunk × RingBytes
  | [] => remainder src size h ring []
  | nxt :: rest =>
    if nxt.used ≤ h.used + size then
      mergeChunks src size { h with size := nxt.used - h.used + nxt.size }
        (tcpCopyToRing data (src + h.size) (nxt.used - h.used - h.size)
          (r.rcvpos + h.used + h.size) ring r.rcvbufsize) rest
    else
      remainder src size h ring (nxt :: rest)
where
  /-- Copy any remainder. -/
  remainder (src : ℤ) (size : ℕ) (h : Rchunk) (ring : RingBytes) (rest : List Rchunk) :
      List Rchunk × RingBytes :=
    if h.size < size then
      ({ h with size } :: rest,
        tcpCopyToRing data (src + h.size) (size - h.size) (r.rcvpos + h.used + h.size) ring
          r.rcvbufsize)
    else
      (h :: rest, ring)

/-- The branch where nothing merges. The bytes are copied before the chunk node
is allocated; `alloc` says whether `RTCS_mem_alloc` succeeds. -/
def newChunk (sec : ℕ) (alloc : Bool) (s : Rbuffer) : Rbuffer × Bool :=
  let ring := tcpCopyToRing data 0 data.length (r.rcvpos + sec) s.rcvbuf r.rcvbufsize
  if 0 < s.rchunkfree then
    (⟨⟨sec, data.length⟩ :: s.rcvchunks, ring, s.rchunkfree - 1⟩, true)
  else if alloc then
    (⟨⟨sec, data.length⟩ :: s.rcvchunks, ring, s.rchunkfree⟩, true)
  else
    ({ s with rcvbuf := ring }, false)

/-- The body of `TCP_Copy_to_Rbuffer` for `size ≠ 0`, from a chunk of the list
on; the boolean is false for `RTCS_ERROR`. -/
def addSection (sec : ℕ) (alloc : Bool) (ring : RingBytes) (free : ℕ) :
    List Rchunk → Rbuffer × Bool
  | [] => newChunk r data sec alloc ⟨[], ring, free⟩
  | h :: rest =>
    -- Skip preceding chunk nodes.
    if h.used + h.size < sec then
      let t := addSection sec alloc ring free rest
      ({ t.1 with rcvchunks := h :: t.1.rcvchunks }, t.2)
    else if h.used ≤ sec then
      -- Back-extend the section to the chunk node.
      let size := data.length + (sec - h.used)
      if size ≤ h.size then (⟨h :: rest, ring, free⟩, true)
      else
        let m := mergeChunks r data (-((sec - h.used : ℕ) : ℤ)) size h ring rest
        (⟨m.1, m.2, free⟩, true)
    else if h.used ≤ sec + data.length then
      -- Back-extend the chunk node to the section.
      let ring' := tcpCopyToRing data 0 (h.used - sec) (r.rcvpos + sec) ring r.rcvbufsize
      let m := mergeChunks r data 0 data.length ⟨sec, h.size + (h.used - sec)⟩ ring' rest
      (⟨m.1, m.2, free⟩, true)
    else
      newChunk r data sec alloc ⟨h :: rest, ring, free⟩

/-- `TCP_Copy_to_Rbuffer`. -/
def tcpCopyToRbuffer (sec : ℕ) (alloc : Bool) (s : Rbuffer) : Rbuffer × Bool :=
  if data.length = 0 then (s, true)
  else addSection r data sec alloc s.rcvbuf s.rchunkfree s.rcvchunks

end copy

section ring

variable {rsize ringofs : UInt32} {data : List UInt8} {src : ℤ} {size dst i n o p : ℕ}
  {ring : RingBytes}

theorem ringDown_toNat (hr : rsize ≠ 0) :
    (ringDown rsize ringofs).toNat = ringofs.toNat % rsize.toNat := by
  fun_induction ringDown rsize ringofs with
  | case1 ringofs h ih =>
    have hle : rsize ≤ ringofs := UInt32.le_iff_toNat_le.mpr h.2
    rw [ih, UInt32.toNat_sub_of_le _ _ hle, ← Nat.mod_eq_sub_mod h.2]
  | case2 ringofs h =>
    rw [Nat.mod_eq_of_lt]
    exact Nat.lt_of_not_le fun hle => h ⟨hr, hle⟩

theorem ringUp_of_lt (h : ringofs.toNat < 2 ^ 31) : ringUp rsize ringofs = ringofs := by
  rw [ringUp, dif_neg]
  rintro ⟨-, hle⟩
  omega

/-- In a ring whose size divides `2^32` the wrap-around of the machine does no
harm. -/
theorem ringUp_mod (h : rsize.toNat ∣ 2 ^ 32) :
    (ringUp rsize ringofs).toNat % rsize.toNat = ringofs.toNat % rsize.toNat := by
  fun_induction ringUp rsize ringofs with
  | case1 ringofs _ ih =>
    rw [ih, UInt32.toNat_add, Nat.mod_mod_of_dvd _ h, Nat.add_mod_right]
  | case2 => rfl

/-- The offset survives its conversion to `int32_t` and the two loops. -/
def RingOk (n o : ℕ) : Prop := o < 2 ^ 31 ∨ n ∣ 2 ^ 32

instance : Decidable (RingOk n o) := inferInstanceAs (Decidable (_ ∨ _))

theorem ringStart_eq (hn : 0 < n) (hn' : n < 2 ^ 32) (ho : RingOk n o) :
    (ringDown (.ofNat n) (ringUp (.ofNat n) (.ofNat o))).toNat = o % n := by
  have hnat : (UInt32.ofNat n).toNat = n := UInt32.toNat_ofNat_of_lt' hn'
  have hr : UInt32.ofNat n ≠ 0 := by
    intro h0
    rw [h0, UInt32.toNat_zero] at hnat
    omega
  rw [ringDown_toNat hr, hnat]
  rcases ho with ho | ho
  · have hnato : (UInt32.ofNat o).toNat = o := UInt32.toNat_ofNat_of_lt' (ho.trans (by decide))
    rw [ringUp_of_lt (by rw [hnato]; exact ho), hnato]
  · have h : (ringUp (.ofNat n) (.ofNat o)).toNat % (UInt32.ofNat n).toNat = _ :=
      ringUp_mod (hnat.symm ▸ ho)
    rw [hnat] at h
    rw [h, UInt32.toNat_ofNat', Nat.mod_mod_of_dvd _ ho]

theorem memCopy_of_mem (h : dst ≤ i) (h' : i < dst + size) :
    memCopy data src ring dst size i = sourceByte data (src + ((i : ℤ) - dst)) :=
  if_pos ⟨h, h'⟩

theorem memCopy_of_not_mem (h : i < dst ∨ dst + size ≤ i) :
    memCopy data src ring dst size i = ring i :=
  if_neg (by omega)

/-- A copy to the ring, seen from the position it starts at. -/
theorem tcpCopyToRing_mem (hn' : n < 2 ^ 32) (ho : RingOk n o) (hsize : size ≤ n) (hp : p < size) :
    tcpCopyToRing data src size o ring n ((o + p) % n) = sourceByte data (src + p) := by
  have hn : 0 < n := by omega
  have hlt : o % n < n := Nat.mod_lt _ hn
  have hmod : (o + p) % n = (o % n + p) % n := (Nat.mod_add_mod o n p).symm
  rw [tcpCopyToRing, if_neg hn.ne']
  simp only [ringStart_eq hn hn' ho]
  rw [hmod]
  generalize o % n = a at hlt
  split_ifs with hat
  · rcases Nat.lt_or_ge (a + p) n with h | h
    · rw [Nat.mod_eq_of_lt h, memCopy_of_not_mem (by omega), memCopy_of_mem (by omega) (by omega)]
      congr 1
      omega
    · rw [Nat.mod_eq_sub_mod h, Nat.mod_eq_of_lt (by omega), memCopy_of_mem (by omega) (by omega)]
      congr 1
      omega
  · rw [Nat.mod_eq_of_lt (by omega), memCopy_of_mem (by omega) (by omega)]
    congr 1
    omega

theorem tcpCopyToRing_not_mem (hn' : n < 2 ^ 32) (ho : RingOk n o) (hsize : size ≤ p) (hp : p < n) :
    tcpCopyToRing data src size o ring n ((o + p) % n) = ring ((o + p) % n) := by
  have hn : 0 < n := by omega
  have hlt : o % n < n := Nat.mod_lt _ hn
  have hmod : (o + p) % n = (o % n + p) % n := (Nat.mod_add_mod o n p).symm
  rw [tcpCopyToRing, if_neg hn.ne']
  simp only [ringStart_eq hn hn' ho]
  rw [hmod]
  generalize o % n = a at hlt
  split_ifs with hat
  · rcases Nat.lt_or_ge (a + p) n with h | h
    · omega
    · rw [Nat.mod_eq_sub_mod h, Nat.mod_eq_of_lt (by omega), memCopy_of_not_mem (by omega),
        memCopy_of_not_mem (by omega)]
  · rcases Nat.lt_or_ge (a + p) n with h | h
    · rw [Nat.mod_eq_of_lt h, memCopy_of_not_mem (by omega)]
    · rw [Nat.mod_eq_sub_mod h, Nat.mod_eq_of_lt (by omega), memCopy_of_not_mem (by omega)]

/-- The byte at a position behind `rcvpos`. -/
def RcvRing.at (r : RcvRing) (ring : RingBytes) (p : ℕ) : UInt8 :=
  ring ((r.rcvpos + p) % r.rcvbufsize)

variable {r : RcvRing} {start : ℕ}

/-- Copying to the positions `[start, start + size)`. -/
theorem at_tcpCopyToRing (ho : RingOk r.rcvbufsize (r.rcvpos + start))
    (hfit : start + size ≤ r.rcvbufsize) (hp : p < r.rcvbufsize) :
    r.at (tcpCopyToRing data src size (r.rcvpos + start) ring r.rcvbufsize) p =
      if start ≤ p ∧ p < start + size then sourceByte data (src + ((p : ℤ) - start))
      else r.at ring p := by
  unfold RcvRing.at
  split_ifs with h
  · have hsum : r.rcvpos + p = r.rcvpos + start + (p - start) := by omega
    rw [hsum, tcpCopyToRing_mem r.rcvbufsize_lt ho (by omega) (by omega)]
    congr 1
    omega
  · rcases Nat.lt_or_ge p start with hlt | hge
    · have hsum : (r.rcvpos + p) % r.rcvbufsize =
          (r.rcvpos + start + (r.rcvbufsize - start + p)) % r.rcvbufsize := by
        have hs : r.rcvpos + start + (r.rcvbufsize - start + p) = r.rcvpos + p + r.rcvbufsize := by
          omega
        rw [hs, Nat.add_mod_right]
      rw [hsum, tcpCopyToRing_not_mem r.rcvbufsize_lt ho (by omega) (by omega)]
    · have hsum : r.rcvpos + p = r.rcvpos + start + (p - start) := by omega
      rw [hsum, tcpCopyToRing_not_mem r.rcvbufsize_lt ho (by omega) (by omega)]

end ring

/-- A position is in one of the chunks. -/
def Covers (cs : List Rchunk) (p : ℕ) : Prop := ∃ c ∈ cs, c.used ≤ p ∧ p < c.used + c.size

instance (cs : List Rchunk) (p : ℕ) : Decidable (Covers cs p) :=
  inferInstanceAs (Decidable (∃ c ∈ cs, _))

/-- Chunks are not empty, stand in order and leave at least one byte between
two of them. -/
structure Separated (cs : List Rchunk) : Prop where
  size_pos : ∀ c ∈ cs, 0 < c.size
  gap : cs.Pairwise fun a b => a.used + a.size < b.used

/-- A copy into the section begins at `p`: the position is free, and it is the
first of the section or follows a received one. -/
def GapStart (cs : List Rchunk) (sec size p : ℕ) : Prop :=
  sec ≤ p ∧ p < sec + size ∧ ¬ Covers cs p ∧ (p = sec ∨ Covers cs (p - 1))

instance (cs : List Rchunk) (sec size p : ℕ) : Decidable (GapStart cs sec size p) :=
  inferInstanceAs (Decidable (_ ∧ _))

/-- What adding the `size` positions from `sec` on does: the free ones receive
their byte of the source, everything else stays. -/
structure Added (r : RcvRing) (data : List UInt8) (src : ℤ) (sec size : ℕ)
    (cs : List Rchunk) (ring : RingBytes) (cs' : List Rchunk) (ring' : RingBytes) : Prop where
  separated : Separated cs'
  covers : ∀ p, Covers cs' p ↔ Covers cs p ∨ (sec ≤ p ∧ p < sec + size)
  fresh : ∀ p, sec ≤ p → p < sec + size → ¬ Covers cs p →
    r.at ring' p = sourceByte data (src + ((p : ℤ) - sec))
  kept : ∀ p, p < r.rcvbufsize → (Covers cs p ∨ p < sec ∨ sec + size ≤ p) →
    r.at ring' p = r.at ring p

section chunks

variable {r : RcvRing} {data : List UInt8} {src : ℤ} {sec size p : ℕ} {h c : Rchunk}
  {cs rest : List Rchunk} {ring : RingBytes}

@[simp] theorem covers_nil : ¬ Covers [] p := by simp [Covers]

@[simp] theorem covers_cons :
    Covers (c :: cs) p ↔ (c.used ≤ p ∧ p < c.used + c.size) ∨ Covers cs p := by
  simp [Covers]

theorem separated_cons :
    Separated (c :: cs) ↔ 0 < c.size ∧ (∀ d ∈ cs, c.used + c.size < d.used) ∧ Separated cs := by
  constructor
  · rintro ⟨h₁, h₂⟩
    rw [List.pairwise_cons] at h₂
    exact ⟨h₁ c List.mem_cons_self, h₂.1, fun d hd => h₁ d (List.mem_cons_of_mem _ hd), h₂.2⟩
  · rintro ⟨h₁, h₂, h₃⟩
    constructor
    · intro d hd
      rcases List.mem_cons.mp hd with rfl | hd
      · exact h₁
      · exact h₃.size_pos d hd
    · exact List.pairwise_cons.mpr ⟨h₂, h₃.gap⟩

/-- Behind the end of a chunk there is one free byte at least, and what follows
lies behind that. -/
theorem Separated.lt_of_covers (hs : Separated (c :: cs)) (hp : Covers cs p) :
    c.used + c.size < p := by
  obtain ⟨d, hd, hle, -⟩ := hp
  have := (separated_cons.mp hs).2.1 d hd
  omega

/-- The end of the section is copied behind the last chunk that was merged. -/
theorem remainder_added (hs : Separated (h :: rest))
    (hfit : h.used + size ≤ r.rcvbufsize) (hrest : ∀ d ∈ rest, h.used + size < d.used)
    (hok : h.size < size → RingOk r.rcvbufsize (r.rcvpos + (h.used + h.size))) :
    Added r data src h.used size (h :: rest) ring
      (mergeChunks.remainder r data src size h ring rest).1
      (mergeChunks.remainder r data src size h ring rest).2 := by
  obtain ⟨hpos, hgap, hsep⟩ := separated_cons.mp hs
  unfold mergeChunks.remainder
  split_ifs with hlt
  · have hat : ∀ p < r.rcvbufsize, r.at (tcpCopyToRing data (src + h.size) (size - h.size)
        (r.rcvpos + h.used + h.size) ring r.rcvbufsize) p =
        if h.used + h.size ≤ p ∧ p < h.used + h.size + (size - h.size) then
          sourceByte data (src + h.size + ((p : ℤ) - (h.used + h.size : ℕ))) else r.at ring p := by
      intro p hp
      rw [Nat.add_assoc]
      exact at_tcpCopyToRing (hok hlt) (by omega) hp
    constructor
    · exact separated_cons.mpr ⟨by dsimp only; omega, hrest, hsep⟩
    · intro p
      simp only [covers_cons]
      have hc : Covers rest p → h.used + h.size < p := hs.lt_of_covers
      grind
    · intro p hp hp' hfree
      simp only [covers_cons, not_or] at hfree
      dsimp only
      rw [hat p (by omega), if_pos (by omega)]
      congr 1
      push_cast
      ring
    · intro p hp hcov
      dsimp only
      rw [hat p hp, if_neg]
      rintro ⟨h₁, h₂⟩
      simp only [covers_cons] at hcov
      rcases hcov with (hcov | ⟨d, hd, hle, -⟩) | hcov
      · omega
      · have := hrest d hd
        omega
      · omega
  · constructor
    · exact hs
    · intro p
      simp only [covers_cons]
      constructor
      · exact Or.inl
      · rintro (hp | hp)
        · exact hp
        · exact .inl ⟨hp.1, by omega⟩
    · intro p hp hp' hfree
      simp only [covers_cons, not_or] at hfree
      omega
    · exact fun _ _ _ => rfl

/-- Behind a chunk that ends inside the section a copy starts. -/
theorem Separated.end_free (hs : Separated (h :: rest)) :
    ¬ Covers (h :: rest) (h.used + h.size) ∧ Covers (h :: rest) (h.used + h.size - 1) := by
  have hpos := (separated_cons.mp hs).1
  constructor
  · rw [covers_cons, not_or]
    refine ⟨by omega, fun hc => ?_⟩
    exact absurd (hs.lt_of_covers hc) (lt_irrefl _)
  · exact covers_cons.mpr (.inl (by omega))

/-- A free part of the section is filled first, and the rest is added to the
longer chunk. -/
theorem Added.after_fill {a b : ℕ} {cs₁ cs' : List Rchunk} {ring₁ ring' : RingBytes}
    (hadded : Added r data src sec size cs₁ ring₁ cs' ring')
    (hcov : ∀ p, Covers cs₁ p ↔ Covers cs p ∨ (a ≤ p ∧ p < b))
    (hfree : ∀ p, a ≤ p → p < b → ¬ Covers cs p)
    (hat : ∀ p < r.rcvbufsize, r.at ring₁ p =
      if a ≤ p ∧ p < b then sourceByte data (src + ((p : ℤ) - sec)) else r.at ring p)
    (ha : sec ≤ a) (hb : b ≤ sec + size) (hfit : sec + size ≤ r.rcvbufsize) :
    Added r data src sec size cs ring cs' ring' := by
  constructor
  · exact hadded.separated
  · intro p
    rw [hadded.covers, hcov]
    grind
  · intro p hp hp' hp''
    by_cases hin : a ≤ p ∧ p < b
    · rw [hadded.kept p (by omega) (.inl ((hcov p).mpr (.inr hin))), hat p (by omega), if_pos hin]
    · refine hadded.fresh p hp hp' ?_
      rw [hcov, not_or]
      exact ⟨hp'', hin⟩
  · intro p hp hp'
    rw [hadded.kept p hp, hat p hp, if_neg]
    · rintro ⟨h₁, h₂⟩
      rcases hp' with hp' | hp'
      · exact hfree p h₁ h₂ hp'
      · omega
    · rcases hp' with hp' | hp'
      · exact .inl ((hcov p).mpr (.inl hp'))
      · exact .inr hp'

/-- The merge loop fills every gap up to the end of the section. -/
theorem mergeChunks_added (hs : Separated (h :: rest))
    (hfit : h.used + size ≤ r.rcvbufsize)
    (hok : ∀ p, h.used + h.size ≤ p → p < h.used + size → ¬ Covers (h :: rest) p →
      Covers (h :: rest) (p - 1) → RingOk r.rcvbufsize (r.rcvpos + p)) :
    Added r data src h.used size (h :: rest) ring
      (mergeChunks r data src size h ring rest).1 (mergeChunks r data src size h ring rest).2 := by
  induction rest generalizing h ring with
  | nil =>
    exact remainder_added hs hfit (by simp)
      fun hlt => hok _ le_rfl (by omega) hs.end_free.1 hs.end_free.2
  | cons nxt rest ih =>
    have hstart : h.size < size → RingOk r.rcvbufsize (r.rcvpos + (h.used + h.size)) :=
      fun hlt => hok _ le_rfl (by omega) hs.end_free.1 hs.end_free.2
    obtain ⟨hpos, hgap, hsep⟩ := separated_cons.mp hs
    have hnxt := hgap nxt List.mem_cons_self
    rw [mergeChunks]
    split_ifs with hle
    · obtain ⟨hpos', hgap', hsep'⟩ := separated_cons.mp hsep
      have hs' : Separated ({ h with size := nxt.used - h.used + nxt.size } :: rest) := by
        refine separated_cons.mpr ⟨by dsimp only; omega, ?_, hsep'⟩
        intro d hd
        have := hgap' d hd
        dsimp only
        omega
      -- Merging adds the gap in front of the next chunk and nothing else.
      have hcov : ∀ p, Covers ({ h with size := nxt.used - h.used + nxt.size } :: rest) p ↔
          Covers (h :: nxt :: rest) p ∨ (h.used + h.size ≤ p ∧ p < nxt.used) := by
        intro p
        simp only [covers_cons]
        grind
      have hfree : ∀ p, h.used + h.size ≤ p → p < nxt.used → ¬ Covers (h :: nxt :: rest) p := by
        intro p h₁ h₂ hc
        simp only [covers_cons] at hc
        rcases hc with hc | hc | hc
        · omega
        · omega
        · have := hsep.lt_of_covers hc
          omega
      have hat : ∀ p < r.rcvbufsize, r.at (tcpCopyToRing data (src + h.size)
          (nxt.used - h.used - h.size) (r.rcvpos + h.used + h.size) ring r.rcvbufsize) p =
          if h.used + h.size ≤ p ∧ p < nxt.used then sourceByte data (src + ((p : ℤ) - h.used))
          else r.at ring p := by
        intro p hp
        rw [Nat.add_assoc, at_tcpCopyToRing (hstart (by omega)) (by omega) hp]
        have hend : h.used + h.size + (nxt.used - h.used - h.size) = nxt.used := by omega
        rw [hend]
        congr 2
        push_cast
        ring
      refine Added.after_fill (ih hs' hfit ?_) hcov hfree hat (by omega) hle hfit
      intro p h₁ h₂ h₃ h₄
      dsimp only at h₁ h₂
      rw [hcov, not_or] at h₃
      rw [hcov] at h₄
      refine hok p (by omega) h₂ h₃.1 ?_
      rcases h₄ with h₄ | h₄
      · exact h₄
      · omega
    · apply remainder_added hs hfit _ hstart
      intro d hd
      rcases List.mem_cons.mp hd with rfl | hd
      · omega
      · have := (separated_cons.mp hsep).2.1 d hd
        omega

/-- A chunk of its own in front of chunks that do not touch it. -/
theorem newChunk_added {alloc : Bool} {free : ℕ} (hs : Separated cs)
    (hdata : 0 < data.length) (hfit : sec + data.length ≤ r.rcvbufsize)
    (hcs : ∀ d ∈ cs, sec + data.length < d.used)
    (hok : ∀ p, GapStart cs sec data.length p → RingOk r.rcvbufsize (r.rcvpos + p))
    (halloc : (newChunk r data sec alloc ⟨cs, ring, free⟩).2 = true) :
    Added r data 0 sec data.length cs ring
      (newChunk r data sec alloc ⟨cs, ring, free⟩).1.rcvchunks
      (newChunk r data sec alloc ⟨cs, ring, free⟩).1.rcvbuf := by
  have hfree : ∀ p < sec + data.length, ¬ Covers cs p := by
    rintro p hp ⟨d, hd, hle, -⟩
    have := hcs d hd
    omega
  have hok' := hok sec ⟨le_rfl, by omega, hfree sec (by omega), .inl rfl⟩
  have hadded : Added r data 0 sec data.length cs ring (⟨sec, data.length⟩ :: cs)
      (tcpCopyToRing data 0 data.length (r.rcvpos + sec) ring r.rcvbufsize) := by
    constructor
    · exact separated_cons.mpr ⟨hdata, hcs, hs⟩
    · intro p
      rw [covers_cons, or_comm]
    · intro p hp hp' _
      rw [at_tcpCopyToRing hok' hfit (by omega), if_pos ⟨hp, hp'⟩]
    · intro p hp hcov
      rw [at_tcpCopyToRing hok' hfit hp, if_neg]
      rintro ⟨h₁, h₂⟩
      rcases hcov with hcov | hcov
      · exact hfree p h₂ hcov
      · omega
  simp only [newChunk] at halloc ⊢
  split_ifs at halloc ⊢
  · exact hadded
  · exact hadded

/-- The section was extended to the front by positions that hold data. -/
theorem Added.of_backExtended {a : ℕ} {cs' : List Rchunk} {ring' : RingBytes} (ha : a ≤ sec)
    (hcov : ∀ p, a ≤ p → p < sec → Covers cs p)
    (hadded : Added r data (-((sec - a : ℕ) : ℤ)) a (size + (sec - a)) cs ring cs' ring') :
    Added r data 0 sec size cs ring cs' ring' := by
  constructor
  · exact hadded.separated
  · intro p
    rw [hadded.covers]
    have := hcov p
    grind
  · intro p hp hp' hfree
    rw [hadded.fresh p (by omega) (by omega) hfree]
    congr 1
    omega
  · intro p hp hp'
    apply hadded.kept p hp
    have := hcov p
    grind

/-- The section begins inside or right behind the chunk. -/
theorem extend_added (hs : Separated (h :: rest))
    (hfit : sec + data.length ≤ r.rcvbufsize) (hle : h.used ≤ sec) (hend : sec ≤ h.used + h.size)
    (hok : ∀ p, GapStart (h :: rest) sec data.length p → RingOk r.rcvbufsize (r.rcvpos + p)) :
    Added r data 0 sec data.length (h :: rest) ring
      (mergeChunks r data (-((sec - h.used : ℕ) : ℤ)) (data.length + (sec - h.used)) h ring rest).1
      (mergeChunks r data (-((sec - h.used : ℕ) : ℤ)) (data.length + (sec - h.used)) h ring
        rest).2 := by
  apply Added.of_backExtended hle
  · intro p h₁ h₂
    exact covers_cons.mpr (.inl ⟨h₁, by omega⟩)
  · apply mergeChunks_added hs (by omega)
    intro p h₁ h₂ h₃ h₄
    exact hok p ⟨by omega, by omega, h₃, .inr h₄⟩

/-- The section ends inside the chunk or reaches it from the front. -/
theorem backExtend_added (hs : Separated (h :: rest))
    (hfit : sec + data.length ≤ r.rcvbufsize) (hlt : sec < h.used)
    (hle : h.used ≤ sec + data.length)
    (hok : ∀ p, GapStart (h :: rest) sec data.length p → RingOk r.rcvbufsize (r.rcvpos + p)) :
    Added r data 0 sec data.length (h :: rest) ring
      (mergeChunks r data 0 data.length ⟨sec, h.size + (h.used - sec)⟩
        (tcpCopyToRing data 0 (h.used - sec) (r.rcvpos + sec) ring r.rcvbufsize) rest).1
      (mergeChunks r data 0 data.length ⟨sec, h.size + (h.used - sec)⟩
        (tcpCopyToRing data 0 (h.used - sec) (r.rcvpos + sec) ring r.rcvbufsize) rest).2 := by
  obtain ⟨hpos, hgap, hsep⟩ := separated_cons.mp hs
  have hfree : ∀ p < h.used, ¬ Covers (h :: rest) p := by
    intro p hp hc
    rcases covers_cons.mp hc with hc | hc
    · omega
    · have := hs.lt_of_covers hc
      omega
  have hcov : ∀ p, Covers (⟨sec, h.size + (h.used - sec)⟩ :: rest) p ↔
      Covers (h :: rest) p ∨ (sec ≤ p ∧ p < h.used) := by
    intro p
    simp only [covers_cons]
    grind
  have hs' : Separated (⟨sec, h.size + (h.used - sec)⟩ :: rest) := by
    refine separated_cons.mpr ⟨by dsimp only; omega, ?_, hsep⟩
    intro d hd
    have := hgap d hd
    dsimp only
    omega
  have hat : ∀ p < r.rcvbufsize,
      r.at (tcpCopyToRing data 0 (h.used - sec) (r.rcvpos + sec) ring r.rcvbufsize) p =
      if sec ≤ p ∧ p < h.used then sourceByte data (0 + ((p : ℤ) - sec)) else r.at ring p := by
    intro p hp
    have hstart := hok sec ⟨le_rfl, by omega, hfree sec hlt, .inl rfl⟩
    rw [at_tcpCopyToRing hstart (by omega) hp]
    have hend : sec + (h.used - sec) = h.used := by omega
    rw [hend]
  refine Added.after_fill (mergeChunks_added hs' hfit ?_) hcov (fun p _ => hfree p) hat le_rfl
    hle hfit
  intro p h₁ h₂ h₃ h₄
  dsimp only at h₁ h₂
  rw [hcov, not_or] at h₃
  rw [hcov] at h₄
  refine hok p ⟨by omega, h₂, h₃.1, .inr ?_⟩
  rcases h₄ with h₄ | h₄
  · exact h₄
  · omega

/-- Chunks that end before the section are skipped. -/
theorem Added.skip {cs' : List Rchunk} {ring' : RingBytes} (hs : Separated (h :: rest))
    (hend : h.used + h.size < sec)
    (hadded : Added r data src sec size rest ring cs' ring') :
    Added r data src sec size (h :: rest) ring (h :: cs') ring' := by
  obtain ⟨hpos, hgap, hsep⟩ := separated_cons.mp hs
  constructor
  · refine separated_cons.mpr ⟨hpos, ?_, hadded.separated⟩
    intro d hd
    have hd' : Covers cs' d.used :=
      ⟨d, hd, le_rfl, Nat.lt_add_of_pos_right (hadded.separated.size_pos d hd)⟩
    rcases (hadded.covers _).mp hd' with hc | hc
    · exact hs.lt_of_covers hc
    · omega
  · intro p
    rw [covers_cons, covers_cons, hadded.covers, or_assoc]
  · intro p hp hp' hfree
    rw [covers_cons, not_or] at hfree
    exact hadded.fresh p hp hp' hfree.2
  · intro p hp hp'
    apply hadded.kept p hp
    rw [covers_cons] at hp'
    rcases hp' with (hp' | hp') | hp'
    · exact .inr (.inl (by omega))
    · exact .inl hp'
    · exact .inr hp'

/-- One call, when the chunk node it may need is there. -/
theorem addSection_added {alloc : Bool} {free : ℕ} (hs : Separated cs) (hdata : 0 < data.length) (hfit : sec + data.length ≤ r.rcvbufsize)
    (hok : ∀ p, GapStart cs sec data.length p → RingOk r.rcvbufsize (r.rcvpos + p))
    (halloc : (addSection r data sec alloc ring free cs).2 = true) :
    Added r data 0 sec data.length cs ring
      (addSection r data sec alloc ring free cs).1.rcvchunks
      (addSection r data sec alloc ring free cs).1.rcvbuf := by
  induction cs with
  | nil => exact newChunk_added hs hdata hfit (by simp) hok halloc
  | cons h rest ih =>
    obtain ⟨hpos, hgap, hsep⟩ := separated_cons.mp hs
    simp only [addSection] at halloc ⊢
    split_ifs at halloc ⊢ with hskip hle hsize hle'
    · apply Added.skip hs hskip
      apply ih hsep _ halloc
      intro p hp
      obtain ⟨h₁, h₂, h₃, h₄⟩ := hp
      refine hok p ⟨h₁, h₂, ?_, ?_⟩
      · rw [covers_cons, not_or]
        exact ⟨by omega, h₃⟩
      · exact h₄.imp_right fun hc => covers_cons.mpr (.inr hc)
    · have hcov : ∀ p, sec ≤ p → p < sec + data.length → Covers (h :: rest) p :=
        fun p h₁ h₂ => covers_cons.mpr (.inl (by omega))
      constructor
      · exact hs
      · intro p
        have := hcov p
        grind
      · intro p h₁ h₂ h₃
        exact absurd (hcov p h₁ h₂) h₃
      · exact fun _ _ _ => rfl
    · exact extend_added hs hfit hle (by omega) hok
    · exact backExtend_added hs hfit (by omega) hle' hok
    · apply newChunk_added hs hdata hfit _ hok halloc
      intro d hd
      rcases List.mem_cons.mp hd with rfl | hd
      · omega
      · have := hgap d hd
        omega

end chunks

/-- The data of one call. -/
structure Segment where
  sec : ℕ
  data : List UInt8

/-- The byte a segment supplies for a position. -/
def Segment.byte? (g : Segment) (p : ℕ) : Option UInt8 :=
  if g.sec ≤ p then g.data[p - g.sec]? else none

/-- The byte of the first segment that covers the position. -/
def firstByte (gs : List Segment) (p : ℕ) : Option UInt8 := gs.findSome? fun g => g.byte? p

/-- The buffer after the calls with the segments `gs`. -/
structure Reassembled (r : RcvRing) (gs : List Segment) (s : Rbuffer) : Prop where
  separated : Separated s.rcvchunks
  covers : ∀ p, Covers s.rcvchunks p ↔ ∃ g ∈ gs, g.sec ≤ p ∧ p < g.sec + g.data.length
  byte : ∀ p b, firstByte gs p = some b → r.at s.rcvbuf p = b

/-- Calls of `TCP_Copy_to_Rbuffer` on a buffer that is empty at first, each with
a section inside the buffer, under a condition on the state and the segment.
No call runs out of memory. -/
inductive RcvRun (r : RcvRing) (Q : Rbuffer → Segment → Prop) : List Segment → Rbuffer → Prop
  | start (ring : RingBytes) (free : ℕ) : RcvRun r Q [] ⟨[], ring, free⟩
  | call {gs : List Segment} {s s' : Rbuffer} {g : Segment} (alloc : Bool) :
      RcvRun r Q gs s → g.sec + g.data.length ≤ r.rcvbufsize → Q s g →
      tcpCopyToRbuffer r g.data g.sec alloc s = (s', true) → RcvRun r Q (gs ++ [g]) s'

/-- Every copy of the call starts at an offset that `int32_t` holds, or the size
of the buffer divides `2^32`. -/
def OffsetsFit (r : RcvRing) (s : Rbuffer) (g : Segment) : Prop :=
  ∀ p, GapStart s.rcvchunks g.sec g.data.length p → RingOk r.rcvbufsize (r.rcvpos + p)

section runs

variable {r : RcvRing} {gs : List Segment} {g : Segment} {s s' : Rbuffer} {p : ℕ}

theorem Segment.byte?_isSome : (g.byte? p).isSome ↔ g.sec ≤ p ∧ p < g.sec + g.data.length := by
  unfold Segment.byte?
  split_ifs with h
  · rw [isSome_getElem?]
    omega
  · simp only [Option.isSome_none, Bool.false_eq_true, false_iff]
    omega

theorem firstByte_isSome :
    (firstByte gs p).isSome ↔ ∃ g ∈ gs, g.sec ≤ p ∧ p < g.sec + g.data.length := by
  simp only [firstByte, List.findSome?_isSome_iff, Segment.byte?_isSome]

theorem firstByte_concat :
    firstByte (gs ++ [g]) p = (firstByte gs p).or (g.byte? p) := by
  simp [firstByte, List.findSome?_append]

/-- A position of the segment reads the byte the segment supplies. -/
theorem sourceByte_eq_of_byte? {b : UInt8} (h : g.byte? p = some b) :
    sourceByte g.data (0 + ((p : ℤ) - g.sec)) = b := by
  unfold Segment.byte? at h
  split_ifs at h with hle
  have hnat : (0 + ((p : ℤ) - g.sec)).toNat = p - g.sec := by omega
  rw [sourceByte, if_pos (by omega), hnat, List.getD_eq_getElem?_getD, h, Option.getD_some]

theorem Reassembled.call {alloc : Bool} (h : Reassembled r gs s)
    (hgs : ∀ g ∈ gs, g.sec + g.data.length ≤ r.rcvbufsize)
    (hfit : g.sec + g.data.length ≤ r.rcvbufsize) (hok : OffsetsFit r s g)
    (hcall : tcpCopyToRbuffer r g.data g.sec alloc s = (s', true)) :
    Reassembled r (gs ++ [g]) s' := by
  unfold tcpCopyToRbuffer at hcall
  split_ifs at hcall with hempty
  · obtain rfl : s = s' := congrArg Prod.fst hcall
    have hnone : ∀ p, g.byte? p = none := by
      intro p
      rw [← Option.not_isSome_iff_eq_none, Segment.byte?_isSome]
      omega
    constructor
    · exact h.separated
    · intro p
      rw [h.covers, ← firstByte_isSome, ← firstByte_isSome, firstByte_concat, hnone, Option.or_none]
    · intro p b hb
      rw [firstByte_concat, hnone, Option.or_none] at hb
      exact h.byte p b hb
  · have hadded : Added r g.data 0 g.sec g.data.length s.rcvchunks s.rcvbuf
        (addSection r g.data g.sec alloc s.rcvbuf s.rchunkfree s.rcvchunks).1.rcvchunks
        (addSection r g.data g.sec alloc s.rcvbuf s.rchunkfree s.rcvchunks).1.rcvbuf :=
      addSection_added h.separated (Nat.pos_of_ne_zero hempty) hfit hok (congrArg Prod.snd hcall)
    rw [hcall] at hadded
    have hcov : ∀ p, Covers s.rcvchunks p ↔ (firstByte gs p).isSome := by
      intro p
      rw [h.covers, firstByte_isSome]
    constructor
    · exact hadded.separated
    · intro p
      rw [hadded.covers, hcov, ← firstByte_isSome, firstByte_concat, Option.isSome_or,
        Bool.or_eq_true, Segment.byte?_isSome]
    · intro p b hb
      rw [firstByte_concat, Option.or_eq_some_iff] at hb
      rcases hb with hb | ⟨hnone, hb⟩
      · -- An earlier call supplied the byte, and this one leaves it.
        have hc : Covers s.rcvchunks p := (hcov p).mpr (by rw [hb]; rfl)
        obtain ⟨g', hg', -, hlt⟩ := (h.covers p).mp hc
        have := hgs g' hg'
        rw [hadded.kept p (by omega) (.inl hc)]
        exact h.byte p b hb
      · have hin : g.sec ≤ p ∧ p < g.sec + g.data.length :=
          Segment.byte?_isSome.mp (by rw [hb]; rfl)
        rw [hadded.fresh p hin.1 hin.2 (by rw [hcov, hnone]; simp)]
        exact sourceByte_eq_of_byte? hb

theorem RcvRun.fits {Q : Rbuffer → Segment → Prop} (h : RcvRun r Q gs s) :
    ∀ g ∈ gs, g.sec + g.data.length ≤ r.rcvbufsize := by
  induction h with
  | start => simp
  | call _ _ hfit _ _ ih =>
    intro g hg
    rcases List.mem_append.mp hg with hg | hg
    · exact ih g hg
    · rw [List.mem_singleton.mp hg]
      exact hfit

/-- When every copy starts at an offset that fits, the chunks are exactly what
was written and every byte is the first one supplied for it. -/
theorem reassembled_of_offsets_fit (h : RcvRun r (OffsetsFit r) gs s) : Reassembled r gs s := by
  induction h with
  | start ring free =>
    constructor
    · exact ⟨by simp, List.Pairwise.nil⟩
    · simp
    · intro p b hb
      simp [firstByte] at hb
  | call _ hrun hfit hok hcall ih => exact ih.call hrun.fits hfit hok hcall

/-- Two segments that overlap, the first one out of order, in a buffer they wrap
around. -/
theorem two_segments_reassembled : ∃ s : Rbuffer, s.rcvchunks = [⟨0, 3⟩] ∧
    Reassembled ⟨5, 4, by decide⟩ [⟨1, [10, 11]⟩, ⟨0, [20, 21]⟩] s := by
  have hfit : ∀ (s : Rbuffer) (g : Segment), g.sec + g.data.length ≤ 5 →
      OffsetsFit ⟨5, 4, by decide⟩ s g := by
    rintro s g hg p ⟨-, hp, -⟩
    exact .inl (by dsimp only; omega)
  refine ⟨_, ?_, reassembled_of_offsets_fit (.call true (.call true
    (.start (fun _ => 0) 0) (by decide) (hfit _ _ (by decide)) rfl) (by decide)
    (hfit _ _ (by decide)) rfl)⟩
  rfl

/-- A buffer of `2^30 + 1` bytes: the offset `2^31` becomes negative, and adding
the size of the buffer until it is positive leads to another byte. -/
theorem byte_not_at_its_position : ∃ s : Rbuffer,
    RcvRun ⟨2 ^ 30 + 1, 2 ^ 30, by decide⟩ (fun _ _ => True) [⟨2 ^ 30, [7]⟩] s ∧
      ¬ Reassembled ⟨2 ^ 30 + 1, 2 ^ 30, by decide⟩ [⟨2 ^ 30, [7]⟩] s := by
  refine ⟨_, RcvRun.call true (.start (fun _ => 0) 0) (by decide) trivial rfl, ?_⟩
  intro h
  have hbyte := h.byte (2 ^ 30) 7 (by simp [firstByte, Segment.byte?])
  have hup : ringUp 1073741825 2147483648 = 2 := by
    rw [ringUp, dif_pos (by decide), ringUp, dif_pos (by decide), ringUp, dif_neg (by decide)]
    rfl
  have hdown : ringDown 1073741825 2 = 2 := by
    rw [ringDown, dif_neg (by decide)]
  simp [RcvRing.at, tcpCopyToRing, hup, hdown, memCopy] at hbyte

end runs

end Rtcs
end Mqx
