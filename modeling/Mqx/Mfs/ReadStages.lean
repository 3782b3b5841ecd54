import Mqx.Mfs.FileRead
import Mqx.Mfs.WriteRuns

/-!
# The loops of a read

On a drive that works, a read copies the bytes of the file to the buffer, whether sectors pass
through the data sector or not. What it does to the drive does not change the file.
-/

namespace Mqx.Mfs

variable {s s' s₀ : FileState} {x y : Transfer} {cl : List ℕ} {k K n P : ℕ} {buffer : ℕ → Byte}

/-- The buffer holds the bytes from `P` on that were read so far. -/
structure ReadInv (s₀ : FileState) (x : Transfer) (cl : List ℕ) (P : ℕ) (buffer : ℕ → Byte) :
    Prop where
  fixed : Fixed s₀ x.s
  file : FileInv x.s cl
  noError : x.error = .noError
  same : ∀ j < chainSectors s₀ cl * s₀.sectorSize, fileByte x.s cl j = fileByte s₀ cl j
  bytes : ∀ o < x.count, buffer o = fileByte s₀ cl (P + o)

/-- A read of `n` bytes that has come to the sector of its position; a dirty data sector holds none
of the sectors up to `K`. -/
structure Serving (s₀ : FileState) (x : Transfer) (cl : List ℕ) (P n K : ℕ) (buffer : ℕ → Byte) :
    Prop where
  inv : ReadInv s₀ x cl P buffer
  stands : Stands s₀ x cl ((P + x.count) / s₀.sectorSize)
  within : P + n ≤ chainSectors s₀ cl * s₀.sectorSize
  le : x.count ≤ n
  clear : x.s.dataSectorDirty = true → Ahead s₀ x.s cl ((P + x.count) / s₀.sectorSize) K

/-- The data sector is not asked about. -/
theorem Serving.weaken (g : Serving s₀ x cl P n K buffer) : Serving s₀ x cl P n 0 buffer :=
  ⟨g.inv, g.stands, g.within, g.le, fun _ k' _ hhi => absurd hhi (Nat.not_lt_zero k')⟩

namespace ReadInv

variable (r : ReadInv s₀ x cl P buffer)

include r

/-- A byte of the file in its sector. -/
theorem view_eq {j : ℕ} (hj : j < chainSectors s₀ cl * s₀.sectorSize) :
    x.s.view (fileSector s₀ cl (j / s₀.sectorSize)) (j % s₀.sectorSize) = fileByte s₀ cl j := by
  rw [← r.same j hj, fileByte, r.fixed.sectorSize, r.fixed.fileSector]

/-- Bytes of the sector `k` are copied through the data sector. -/
theorem fetch (hk : k < chainSectors s₀ cl) (hnum : x.sectorNumber = fileSector s₀ cl k)
    {pos size : ℕ} (hfit : pos + size ≤ s₀.sectorSize)
    (hP : P + x.count = k * s₀.sectorSize + pos) :
    ∃ s' buffer', x.fetch pos size buffer =
        ({ x with s := s', error := .noError, count := x.count + size }, buffer') ∧
      ReadInv s₀ { x with s := s', error := .noError, count := x.count + size } cl P buffer' ∧
      OnlyData x.s s' ∧ s'.dataSectorNumber = fileSector s₀ cl k := by
  have hpos := r.file.sectorSize_pos r.fixed
  have hss : x.s.sectorSize = s₀.sectorSize := r.fixed.sectorSize
  have hdata := r.file.dataSector r.fixed hk
  have hsize : (k + 1) * s₀.sectorSize ≤ chainSectors s₀ cl * s₀.sectorSize :=
    Nat.mul_le_mul_right _ hk
  rw [Nat.add_mul, Nat.one_mul] at hsize
  obtain ⟨s', hload, honly, hinv, hnumber, -, hbytes, hview⟩ :=
    load_read_spec r.file.drive hdata
  refine ⟨s', storeBytes buffer x.count size (fun o => s'.dataSector (pos + o)), ?_, ⟨?_, ?_, rfl,
    ?_, ?_⟩, honly, hnumber⟩
  · simp only [Transfer.fetch, hnum, hload, ne_eq, not_true_eq_false, if_false]
  · exact r.fixed.onlyData honly
  · refine ⟨hinv, r.file.chain.sameTable honly.table, honly.firstCluster.trans r.file.first, ?_⟩
    intro c hmin hlast hfree q hq heq
    rw [honly.vol] at hlast
    rw [honly.table.entryCode hlast] at hfree
    rw [honly.layout] at hq
    rw [hnumber, ← r.fixed.fileSector, honly.clusterToSector] at heq
    -- the sector belongs to a cluster of the chain, which is not free
    have hkx : k < chainSectors x.s cl := by rwa [r.fixed.chainSectors]
    have hmem := getD_mem (cluster_index_lt hkx) 0
    have hc := r.file.chain.range _ hmem
    have hmod := Nat.mod_lt k r.file.drive.geometry.spc_pos
    obtain ⟨heqc, -⟩ := clusterToSector_inj hc.1 hmin hmod hq heq
    exact r.file.chain.not_unused hmem (by rw [heqc]; exact hfree)
  · intro j hj
    have hjlt := sector_lt hj
    rw [← r.same j hj, fileByte, fileByte, honly.sectorSize, fileSector_congr honly.layout,
      r.fixed.fileSector, hss]
    exact hview _ (r.file.dataSector r.fixed hjlt).2 _ (by rw [hss]; exact Nat.mod_lt _ hpos)
  · intro o (ho : o < x.count + size)
    by_cases hlt : o < x.count
    · rw [storeBytes, if_neg (by omega)]
      exact r.bytes o hlt
    · rw [storeBytes, if_pos ⟨by omega, ho⟩, hbytes _ (by omega)]
      have hj : P + o = k * s₀.sectorSize + (pos + (o - x.count)) := by omega
      have hlt' : pos + (o - x.count) < s₀.sectorSize := by omega
      rw [← r.view_eq (show P + o < _ by omega), hj, Nat.mul_comm, Nat.mul_add_div hpos,
        Nat.div_eq_of_lt hlt', Nat.mul_add_mod, Nat.mod_eq_of_lt hlt', Nat.add_zero]

/-- To the next sector, which there is if something is left to read. -/
theorem next (a : At x.s cl k) (hk : k < chainSectors s₀ cl)
    (hidx : x.sectorIndex = k % s₀.layout.sectorsPerCluster) {more : Bool}
    (hmore : more = true → k + 1 < chainSectors s₀ cl) :
    ReadInv s₀ (x.next more) cl P buffer ∧ Stands s₀ (x.next more) cl (k + 1) ∧
      (x.next more).count = x.count ∧ (x.next more).sectorOffset = x.sectorOffset ∧
      (x.next more).s.dataSectorNumber = x.s.dataSectorNumber ∧
      (x.next more).s.dataSectorDirty = x.s.dataSectorDirty := by
  have hkx : k < chainSectors x.s cl := by rwa [r.fixed.chainSectors]
  obtain ⟨e, idx, num, s', hnext, honly, htable, hfirst, -, hat, hin, -⟩ :=
    nextDataSector_spec r.file.linked a hkx x.sectorNumber
  rw [r.fixed.layout, ← hidx] at hnext
  rw [r.fixed.chainSectors, r.fixed.layout, r.fixed.fileSector] at hin
  unfold Transfer.next
  simp only [hnext, true_and]
  refine ⟨⟨r.fixed.onlyFat honly, r.file.onlyFat honly htable hfirst, ?_, ?_,
    r.bytes⟩, ⟨hat, fun h => (hin h).2.1, fun h => (hin h).2.2⟩, honly.number, honly.dirty⟩
  · split_ifs with h
    · exact (hin (hmore h)).1
    · exact r.noError
  · intro j hj
    have hjs : j < chainSectors x.s cl * x.s.sectorSize := by
      rwa [r.fixed.chainSectors, r.fixed.sectorSize]
    have hbyte := fileByte_onlyFat r.file honly [] hjs
    rw [List.append_nil] at hbyte
    rw [hbyte]
    exact r.same j hj

end ReadInv

/-! ## The loops -/

/-- Bytes up to the end of a sector were read, and the transfer goes to the next one. -/
theorem ReadInv.step (r : ReadInv s₀ x cl P buffer)
    (hin : P + n ≤ chainSectors s₀ cl * s₀.sectorSize) (hle : x.count ≤ n) (a : At x.s cl k)
    (hk : k < chainSectors s₀ cl) (hidx : x.sectorIndex = k % s₀.layout.sectorsPerCluster)
    (hP : P + x.count = (k + 1) * s₀.sectorSize)
    (hclear : x.s.dataSectorDirty = true → Ahead s₀ x.s cl (k + 1) K) :
    Serving s₀ (x.next (decide (x.count < n))) cl P n K buffer ∧
      (x.next (decide (x.count < n))).count = x.count := by
  have hpos := r.file.sectorSize_pos r.fixed
  have hdiv : (P + x.count) / s₀.sectorSize = k + 1 := by rw [hP, Nat.mul_div_cancel _ hpos]
  have hmore : decide (x.count < n) = true → k + 1 < chainSectors s₀ cl := by
    intro h
    rw [decide_eq_true_eq] at h
    rw [← hdiv]
    exact sector_lt (lt_of_lt_of_le (by omega) hin)
  obtain ⟨hinv, hstands, hcount, -, hnum, hdirty⟩ := r.next a hk hidx hmore
  refine ⟨⟨hinv, ?_, hin, hcount.trans_le hle, ?_⟩, hcount⟩
  · rw [hcount, hdiv]
    exact hstands
  · rw [hcount, hdiv, hdirty]
    intro h k' hlo hhi hlt
    rw [hnum]
    exact hclear h k' hlo hhi hlt

/-- The partial sector at the front. -/
theorem readHead_spec (hn : 0 < n) (hcount : x.count = 0)
    (hoff : x.sectorOffset = P % s₀.sectorSize) (hK : K ≤ (P + n) / s₀.sectorSize)
    (hclear : P % s₀.sectorSize = 0 → x.s.dataSectorDirty = true →
      Ahead s₀ x.s cl (P / s₀.sectorSize) K) (g : Serving s₀ x cl P n 0 buffer) :
    ∃ y buffer', x.readHead n buffer = (y, buffer') ∧ Serving s₀ y cl P n K buffer' ∧
      (y.count < n → (P + y.count) % s₀.sectorSize = 0) ∧ (P % s₀.sectorSize = 0 → y = x) := by
  have hss : x.s.sectorSize = s₀.sectorSize := g.inv.fixed.sectorSize
  have hpos := g.inv.file.sectorSize_pos g.inv.fixed
  have hmod := Nat.mod_lt P hpos
  have hsplit := sector_start_le P s₀.sectorSize
  have hin := g.within
  unfold Transfer.readHead
  by_cases h0 : P % s₀.sectorSize = 0
  · rw [if_neg (by rw [hoff, h0]; simp)]
    refine ⟨x, buffer, rfl, ⟨g.inv, g.stands, hin, g.le, ?_⟩, fun _ => ?_, fun _ => rfl⟩
    · rw [hcount, Nat.add_zero]
      exact hclear h0
    · rw [hcount, Nat.add_zero]
      exact h0
  rw [if_pos (by rwa [hoff])]
  obtain ⟨size, hsize⟩ : ∃ size, min n (x.s.sectorSize - x.sectorOffset) = size := ⟨_, rfl⟩
  have hbound : 0 < size ∧ P % s₀.sectorSize + size ≤ s₀.sectorSize ∧ size ≤ n ∧
      (P % s₀.sectorSize + size < s₀.sectorSize → size = n) := by
    rw [hss, hoff] at hsize
    omega
  obtain ⟨hs0, hfit, hle, hall⟩ := hbound
  have hk : P / s₀.sectorSize < chainSectors s₀ cl := sector_lt (by omega)
  have hst := g.stands
  rw [hcount, Nat.add_zero] at hst
  obtain ⟨s', buffer', hfetch, r, honly, hnum⟩ := g.inv.fetch hk (hst.number hk) hfit
    (by rw [hcount, Nat.add_zero, hsplit])
  have hat : At s' cl (P / s₀.sectorSize) := hst.at_.congr honly.layout rfl honly.currentCluster
    honly.previousCluster
  have hahead := fun K => r.file.ahead (K := K) r.fixed hk hnum
  simp only [hcount, Nat.zero_add] at hfetch r
  rw [← hoff] at hfetch
  simp only [hsize, hfetch, ne_eq, not_true_eq_false, if_false]
  rcases end_of_sector hpos hfit with ⟨hfull, hQ, hzero⟩ | ⟨hpart, hdiv, hmod'⟩
  · rw [if_pos (by rw [hoff, hss]; exact hfull.ge)]
    have hstep := r.step hin hle hat hk (hst.index hk) hQ (K := K) fun _ => hahead K
    simp only at hstep
    refine ⟨_, buffer', rfl, hstep.1, fun _ => ?_, fun h => absurd h h0⟩
    rw [hstep.2]
    exact hzero
  · have hend := hall hpart
    rw [if_neg (by rw [hoff, hss]; exact Nat.not_le.mpr hpart)]
    refine ⟨_, buffer', rfl, ⟨r, ?_, hin, hle, fun _ k' hlo hhi => ?_⟩, fun h => ?_,
      fun h => absurd h h0⟩
    · simp only [hdiv]
      exact ⟨hat, hst.index, hst.number⟩
    · simp only [hend] at hlo
      omega
    · exact absurd h (by simp only; omega)

/-- The loop over whole sectors through the data sector. -/
theorem readCopied_spec (m : ℕ) (hle : x.count + m * s₀.sectorSize ≤ n)
    (hzero : 0 < m → (P + x.count) % s₀.sectorSize = 0) (g : Serving s₀ x cl P n 0 buffer) :
    ∃ y buffer', Transfer.readCopied n m x buffer = (y, buffer') ∧
      Serving s₀ y cl P n 0 buffer' ∧ y.count = x.count + m * s₀.sectorSize := by
  induction m generalizing x buffer with
  | zero => exact ⟨x, buffer, rfl, g, by omega⟩
  | succ m ih =>
    have hss : x.s.sectorSize = s₀.sectorSize := g.inv.fixed.sectorSize
    have hpos := g.inv.file.sectorSize_pos g.inv.fixed
    have hin := g.within
    have h0 := hzero (by omega)
    have hsplit := sector_start_le (P + x.count) s₀.sectorSize
    rw [Nat.succ_mul] at hle
    have hk : (P + x.count) / s₀.sectorSize < chainSectors s₀ cl := sector_lt (by omega)
    have hfit : 0 + s₀.sectorSize ≤ s₀.sectorSize := by omega
    obtain ⟨s', buffer', hfetch, r, honly, -⟩ := g.inv.fetch hk (g.stands.number hk) hfit
      (by omega)
    have hat : At s' cl ((P + x.count) / s₀.sectorSize) :=
      g.stands.at_.congr honly.layout rfl honly.currentCluster honly.previousCluster
    have hQ : P + (x.count + s₀.sectorSize) =
        ((P + x.count) / s₀.sectorSize + 1) * s₀.sectorSize := by
      rw [Nat.succ_mul]
      omega
    have hstep := r.step hin (show x.count + s₀.sectorSize ≤ n by omega) hat hk
      (g.stands.index hk) hQ (K := 0) fun _ k' _ hhi => absurd hhi (Nat.not_lt_zero k')
    unfold Transfer.readCopied
    simp only [if_pos g.inv.noError, hss, hfetch, ne_eq, not_true_eq_false, if_false]
    obtain ⟨gz, hcount⟩ := hstep
    generalize Transfer.next _ (decide (x.count + s₀.sectorSize < n)) = z at gz hcount ⊢
    have hcount' : z.count = x.count + s₀.sectorSize := hcount
    obtain ⟨y, b, hy, gy, hcy⟩ := ih (by rw [hcount']; omega)
      (fun _ => by rw [hcount', hQ, Nat.mul_mod_left]) gz
    refine ⟨y, b, hy, gy, ?_⟩
    rw [hcy, hcount', Nat.succ_mul]
    omega

/-- The sectors from `k` on are read in one transfer. -/
theorem ReadInv.direct (r : ReadInv s₀ x cl P buffer) (a : At x.s cl k)
    (hk : k < chainSectors s₀ cl) (hP : P + x.count = k * s₀.sectorSize) {cont : ℕ}
    (hcont : 0 < cont)
    (hfit : k % s₀.layout.sectorsPerCluster + cont ≤ s₀.layout.sectorsPerCluster)
    (hclear : x.s.dataSectorDirty = true → Ahead s₀ x.s cl k (k + cont)) :
    ∃ d buffer', mfsReadDeviceSectors x.s.d (fileSector s₀ cl k) cont buffer x.count =
        (.noError, buffer', d) ∧
      ReadInv s₀ { x with
        s := { x.s with d := d }, error := .noError, count := x.count + cont * s₀.sectorSize,
        sectorIndex := x.sectorIndex + (cont - 1) } cl P buffer' ∧
      At { x.s with d := d } cl (k + (cont - 1)) ∧ k + (cont - 1) < chainSectors s₀ cl ∧
      fileSector s₀ cl k + cont ≤ x.s.d.vol.megaSectors + 1 := by
  have hpos := r.file.sectorSize_pos r.fixed
  have hss : x.s.sectorSize = s₀.sectorSize := r.fixed.sectorSize
  have hnear := fileSector_near cl rfl hk hfit
  obtain ⟨hlast, hlasteq, hlastdiv⟩ := hnear (cont - 1) (by omega)
  have hdata := (r.file.dataSector r.fixed hlast).2
  have hmega : fileSector s₀ cl k + cont ≤ x.s.d.vol.megaSectors + 1 := by omega
  have hapart : x.s.dataSectorDirty = true → ¬(fileSector s₀ cl k ≤ x.s.dataSectorNumber ∧
      x.s.dataSectorNumber < fileSector s₀ cl k + cont) := by
    rintro hdirty ⟨hlo, hhi⟩
    obtain ⟨i, hi⟩ : ∃ i, x.s.dataSectorNumber = fileSector s₀ cl k + i :=
      ⟨x.s.dataSectorNumber - fileSector s₀ cl k, by omega⟩
    obtain ⟨hlt, hadd, -⟩ := hnear i (by omega)
    exact hclear hdirty (k + i) (by omega) (by omega) hlt (by rw [hadd, hi])
  obtain ⟨d, buffer', hread, honly, hinv, hview, hbytes, hrest⟩ :=
    direct_read_spec r.file.drive hcont hmega hapart buffer x.count
  rw [hss] at hbytes
  refine ⟨d, buffer', hread, ⟨r.fixed.onlyData honly, ?_, rfl, ?_, ?_⟩, ?_, hlast, hmega⟩
  · refine ⟨hinv, r.file.chain.sameTable honly.table, r.file.first, ?_⟩
    intro c hmin hlastc hfree
    simp only at hlastc hfree
    rw [honly.vol] at hlastc
    rw [honly.table.entryCode hlastc] at hfree
    exact r.file.apart c hmin hlastc hfree
  · intro j hj
    rw [← r.same j hj, fileByte, fileByte, honly.sectorSize, fileSector_congr honly.layout]
    exact hview _ _
  · intro o (ho : o < x.count + cont * s₀.sectorSize)
    by_cases hlt : o < x.count
    · rw [hrest o hlt]
      exact r.bytes o hlt
    · -- byte `q` of the transfer is in sector `k + q / sectorSize`
      obtain ⟨q, hq⟩ : ∃ q, o = x.count + q := ⟨o - x.count, by omega⟩
      have hqlt : q < cont * s₀.sectorSize := by omega
      have hdiv : q / s₀.sectorSize < cont := sector_lt hqlt
      obtain ⟨hin, hadd, -⟩ := hnear _ hdiv
      have hj : P + o = s₀.sectorSize * k + q := by
        rw [hq, Nat.mul_comm]
        omega
      have hroom := Nat.mul_le_mul_right s₀.sectorSize hin
      have hqs := sector_start_le q s₀.sectorSize
      have hmod := Nat.mod_lt q hpos
      rw [Nat.succ_mul, Nat.add_mul] at hroom
      rw [hq, hbytes q hqlt, ← hq, ← r.view_eq (show P + o < _ by omega), hj,
        Nat.mul_add_div hpos, Nat.mul_add_mod, hadd]
  · refine At.congr (a.within ?_ ?_) rfl rfl rfl rfl
    · rw [r.fixed.layout]
      exact hlastdiv
    · rw [r.fixed.chainSectors]
      omega

/-- A turn of the loop over whole sectors without a copy. -/
theorem readSectors_works (w : x.s.d.Works) (done : ℕ → ℕ) {cont : ℕ} (processed : ℕ)
    (hcont : 0 < cont) (hmega : x.sectorNumber + cont ≤ x.s.d.vol.megaSectors + 1)
    (hlim : x.count + cont * x.s.sectorSize < 2 ^ 32) {buffer' : ℕ → Byte} {d : Drive}
    (hread : mfsReadDeviceSectors x.s.d x.sectorNumber cont buffer x.count =
      (.noError, buffer', d)) :
    x.readSectors done n cont processed buffer = (cont, Transfer.next { x with
      s := { x.s with d := d }, error := .noError, count := x.count + cont * x.s.sectorSize,
      sectorIndex := x.sectorIndex + (cont - 1) }
        (decide (x.count + cont * x.s.sectorSize < n)), buffer') := by
  have hproc : x.procSectors done cont processed = cont := by
    rw [Transfer.procSectors, if_neg (by omega), w.noFault]
    rfl
  simp only [Transfer.readSectors, hread, hproc, Transfer.received, gt_iff_lt, if_pos hcont,
    Nat.mod_eq_of_lt hlim, true_and]

/-- The loop over whole sectors without a copy. -/
theorem readDirect_spec (done : ℕ → ℕ) (hlim : n < 2 ^ 32) (hK : K = (P + n) / s₀.sectorSize)
    (m whole processed : ℕ) (hm : whole ≤ m) (hle : x.count + whole * s₀.sectorSize ≤ n)
    (hzero : 0 < whole → (P + x.count) % s₀.sectorSize = 0) (g : Serving s₀ x cl P n K buffer) :
    ∃ y buffer', Transfer.readDirect done n m whole processed x buffer = (y, buffer') ∧
      Serving s₀ y cl P n K buffer' ∧ y.count = x.count + whole * s₀.sectorSize := by
  induction m generalizing x buffer whole processed with
  | zero =>
    have hw : whole = 0 := by omega
    subst hw
    exact ⟨x, buffer, rfl, g, by omega⟩
  | succ m ih =>
    unfold Transfer.readDirect
    by_cases hw : 0 < whole
    · have hss : x.s.sectorSize = s₀.sectorSize := g.inv.fixed.sectorSize
      have hspc : x.s.layout.sectorsPerCluster = s₀.layout.sectorsPerCluster := by
        rw [g.inv.fixed.layout]
      have hpos := g.inv.file.sectorSize_pos g.inv.fixed
      have hin := g.within
      have h0 := hzero hw
      have hmul := Nat.mul_le_mul_right s₀.sectorSize hw
      rw [Nat.succ_mul, Nat.zero_mul, Nat.zero_add] at hmul
      have hsplit := sector_start_le (P + x.count) s₀.sectorSize
      have hk : (P + x.count) / s₀.sectorSize < chainSectors s₀ cl := sector_lt (by omega)
      have hidx := g.stands.index hk
      have hnum := g.stands.number hk
      have hmod := Nat.mod_lt ((P + x.count) / s₀.sectorSize) (g.inv.file.spc_pos g.inv.fixed)
      obtain ⟨cont, hcont⟩ : ∃ cont, x.contSectors whole = cont := ⟨_, rfl⟩
      have hbound : 0 < cont ∧ cont ≤ whole ∧ (P + x.count) / s₀.sectorSize %
          s₀.layout.sectorsPerCluster + cont ≤ s₀.layout.sectorsPerCluster := by
        rw [Transfer.contSectors, hspc, hidx] at hcont
        omega
      obtain ⟨hc0, hcw, hfit⟩ := hbound
      have hcs := Nat.mul_le_mul_right s₀.sectorSize hcw
      have hsum : (P + x.count) / s₀.sectorSize + cont ≤ K := by
        rw [hK, Nat.le_div_iff_mul_le hpos, Nat.add_mul]
        omega
      obtain ⟨d, buffer', hread, r, hat, hklast, hmega⟩ := g.inv.direct g.stands.at_ hk
        (by omega) hc0 hfit (fun h k' hlo hhi => g.clear h k' hlo (by omega))
      have hQ : P + (x.count + cont * s₀.sectorSize) =
          ((P + x.count) / s₀.sectorSize + (cont - 1) + 1) * s₀.sectorSize := by
        rw [show (P + x.count) / s₀.sectorSize + (cont - 1) + 1 =
          (P + x.count) / s₀.sectorSize + cont by omega, Nat.add_mul]
        omega
      have hnext : x.sectorIndex + (cont - 1) = ((P + x.count) / s₀.sectorSize + (cont - 1)) %
          s₀.layout.sectorsPerCluster := by
        rw [(fileSector_add s₀ cl (i := cont - 1) rfl (by omega)).2.1, hidx]
      have hstep := r.step hin (show x.count + cont * s₀.sectorSize ≤ n by omega) hat hklast hnext
        hQ (K := K) fun h k' hlo hhi => g.clear h k' (by omega) hhi
      rw [← hnum] at hread hmega
      rw [if_pos ⟨hw, g.inv.noError⟩, hcont, readSectors_works g.inv.file.drive.works done processed
        hc0 hmega (by rw [hss]; omega) hread]
      simp only [hss]
      obtain ⟨gz, hcount⟩ := hstep
      generalize Transfer.next _ (decide (x.count + cont * s₀.sectorSize < n)) = z at gz hcount ⊢
      have hcount' : z.count = x.count + cont * s₀.sectorSize := hcount
      obtain ⟨y, b, hy, gy, hcy⟩ := ih (whole - cont) cont (by omega)
        (by rw [hcount', Nat.sub_mul]; omega) (fun _ => by rw [hcount', hQ, Nat.mul_mod_left]) gz
      refine ⟨y, b, hy, gy, ?_⟩
      rw [hcy, hcount', Nat.sub_mul]
      omega
    · have hw0 : whole = 0 := by omega
      subst hw0
      rw [if_neg (by simp)]
      exact ⟨x, buffer, rfl, g, by omega⟩

/-- What is left for the last sector. -/
theorem readTail_spec (hzero : x.count < n → (P + x.count) % s₀.sectorSize = 0)
    (hrest : n < x.count + s₀.sectorSize) (g : Serving s₀ x cl P n K buffer) :
    ∃ y buffer', x.readTail n buffer = (y, buffer') ∧ ReadInv s₀ y cl P buffer' ∧
      At y.s cl ((P + n) / s₀.sectorSize) ∧ y.count = n := by
  have hle := g.le
  unfold Transfer.readTail
  by_cases hlt : x.count < n
  · have hpos := g.inv.file.sectorSize_pos g.inv.fixed
    have hin := g.within
    have h0 := hzero hlt
    have hsplit := sector_start_le (P + x.count) s₀.sectorSize
    have hk : (P + x.count) / s₀.sectorSize < chainSectors s₀ cl := sector_lt (by omega)
    have hfit : 0 + (n - x.count) ≤ s₀.sectorSize := by omega
    obtain ⟨s', buffer', hfetch, r, honly, -⟩ := g.inv.fetch hk (g.stands.number hk) hfit
      (by omega)
    have hsum : x.count + (n - x.count) = n := by omega
    rw [hsum] at hfetch r
    rw [if_pos ⟨hlt, g.inv.noError⟩, hfetch]
    refine ⟨_, buffer', rfl, r, ?_, rfl⟩
    have hlt' : (P + x.count) % s₀.sectorSize + (n - x.count) ≤ s₀.sectorSize := by omega
    rcases end_of_sector hpos hlt' with ⟨hfull, -, -⟩ | ⟨-, hdiv, -⟩
    · omega
    · rw [show P + n = P + x.count + (n - x.count) by omega, hdiv]
      exact g.stands.at_.congr honly.layout rfl honly.currentCluster honly.previousCluster
  · have hcn : x.count = n := by omega
    rw [if_neg (by simp [hlt])]
    have hat := g.stands.at_
    rw [hcn] at hat
    exact ⟨x, buffer, rfl, g.inv, hat, hcn⟩

/-- All of a transfer. -/
theorem readBytes_spec (done : ℕ → ℕ) (address processed : ℕ) (hn : 0 < n) (hlim : n < 2 ^ 32)
    (hcount : x.count = 0) (hoff : x.sectorOffset = P % s₀.sectorSize)
    (hin : P + n ≤ chainSectors s₀ cl * s₀.sectorSize) (r : ReadInv s₀ x cl P buffer)
    (hst : Stands s₀ x cl (P / s₀.sectorSize))
    (hclear : address % 2 ^ 32 &&& s₀.layout.alignmentMask = 0 → P % s₀.sectorSize = 0 →
      x.s.dataSectorDirty = true →
        Ahead s₀ x.s cl (P / s₀.sectorSize) ((P + n) / s₀.sectorSize)) :
    ∃ y buffer', x.readBytes done n address processed buffer = (y, buffer') ∧
      ReadInv s₀ y cl P buffer' ∧ At y.s cl ((P + n) / s₀.sectorSize) ∧ y.count = n := by
  have hpos := r.file.sectorSize_pos r.fixed
  obtain ⟨K, hK⟩ : ∃ K, K = if P % s₀.sectorSize = 0 →
      address % 2 ^ 32 &&& s₀.layout.alignmentMask = 0 then (P + n) / s₀.sectorSize
      else 0 := ⟨_, rfl⟩
  have hKle : K ≤ (P + n) / s₀.sectorSize := by
    rw [hK]
    split_ifs
    · exact le_refl _
    · exact Nat.zero_le _
  have g : Serving s₀ x cl P n 0 buffer :=
    ⟨r, by rwa [hcount], hin, by omega, fun _ k' _ hhi => absurd hhi (Nat.not_lt_zero k')⟩
  have hclear' : P % s₀.sectorSize = 0 → x.s.dataSectorDirty = true →
      Ahead s₀ x.s cl (P / s₀.sectorSize) K := by
    intro h0 hdirty
    rw [hK]
    split_ifs with hal
    · exact hclear (hal h0) h0 hdirty
    · exact fun k' _ hhi => absurd hhi (Nat.not_lt_zero k')
  obtain ⟨h, b₁, hhead, gh, hzero, hsame⟩ := readHead_spec hn hcount hoff hKle hclear' g
  have hlay : h.s.layout = s₀.layout := gh.inv.fixed.layout
  have hhle := gh.le
  obtain ⟨m, hm⟩ : ∃ m, (n - h.count) / s₀.sectorSize = m := ⟨_, rfl⟩
  have hsplit := sector_start_le (n - h.count) s₀.sectorSize
  have hrest := Nat.mod_lt (n - h.count) hpos
  rw [hm] at hsplit
  have hzero' : 0 < m → (P + h.count) % s₀.sectorSize = 0 := by
    intro hm0
    have := Nat.mul_le_mul_right s₀.sectorSize hm0
    exact hzero (by omega)
  -- the whole sectors, one way or the other
  obtain ⟨v, b₂, hwhole, gv, hvc⟩ : ∃ v b₂, h.readWhole done n address processed b₁ = (v, b₂) ∧
      Serving s₀ v cl P n 0 b₂ ∧ v.count = h.count + m * s₀.sectorSize := by
    unfold Transfer.readWhole
    rw [show h.s.sectorSize = s₀.sectorSize from gh.inv.fixed.sectorSize, hm]
    simp only
    by_cases hal : h.Aligned address
    · have hKn : K = (P + n) / s₀.sectorSize := by
        rw [hK, if_pos]
        intro h0
        rwa [Transfer.Aligned, hsame h0, hcount, Nat.add_zero, ← hsame h0, hlay] at hal
      rw [if_pos hal]
      obtain ⟨v, b₂, hrun, gv, hvc⟩ := readDirect_spec done hlim hKn m m processed (le_refl m)
        (by omega) hzero' gh
      exact ⟨v, b₂, hrun, gv.weaken, hvc⟩
    · rw [if_neg hal]
      exact readCopied_spec m (by omega) hzero' gh.weaken
  have hvle := gv.le
  have hvzero : v.count < n → (P + v.count) % s₀.sectorSize = 0 := by
    intro hlt
    rw [hvc, ← Nat.add_assoc, Nat.add_mul_mod_self_right]
    exact hzero (by omega)
  obtain ⟨y, b₃, htail, ry, hat, hyc⟩ := readTail_spec hvzero (by omega) gv
  refine ⟨y, b₃, ?_, ry, hat, hyc⟩
  unfold Transfer.readBytes
  simp only [hhead, hwhole, htail]

end Mqx.Mfs
