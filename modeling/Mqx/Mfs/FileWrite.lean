import Mqx.Mfs.FileSteps

/-!
# Writing to a file

The parts of a write, and what they have in common: they go on from a position in the
file, and the bytes up to it are the new ones. A write that runs out of clusters stops
being described; that the disk was full is not forgotten.
-/

namespace Mqx.Mfs

variable {s s' : FileState} {x y : Transfer} {cl : List ℕ} {k : ℕ}

/-! ## A full disk -/

section Full

theorem flush_full (s : FileState) : s.mfsFlushDataSectorBuffer.2.full = s.full := by
  unfold FileState.mfsFlushDataSectorBuffer
  simp only
  split_ifs <;> rfl

theorem readDataSector_full (s : FileState) (n : ℕ) (hw : Bool) :
    (s.mfsReadDataSector n hw).2.full = s.full := by
  have hinv : ∀ s : FileState, s.mfsInvalidateDataSector.full = s.full := by
    intro s
    unfold FileState.mfsInvalidateDataSector
    split_ifs <;> rfl
  unfold FileState.mfsReadDataSector
  simp only
  split_ifs
  · exact (hinv _).trans (flush_full s)
  · exact (hinv _).trans (flush_full s)
  · exact (hinv _).trans (flush_full s)
  · rfl

theorem fillDataSector_full (s : FileState) (pos size : ℕ) (src : ℕ → Byte) :
    (s.fillDataSector pos size src).2.full = s.full := by
  unfold FileState.fillDataSector
  simp only
  split_ifs
  · exact flush_full _
  · rfl

theorem unlock_full (s : FileState) : s.mfsUnlock.2.full = s.full := by
  unfold FileState.mfsUnlock
  simp only
  split_ifs
  · exact flush_full s
  · exact flush_full s
  · rfl
  · rfl

theorem nextDataSector_full (s : FileState) (i n : ℕ) :
    (s.mfsNextDataSector i n).2.2.2.full = s.full := by
  unfold FileState.mfsNextDataSector
  simp only
  split_ifs <;> rfl

theorem findUnused_full (h : s.full = true) (c : ℕ) :
    (s.mfsFindUnusedClusterFrom c).2.full = true := by
  unfold FileState.mfsFindUnusedClusterFrom
  simp only
  split
  · rfl
  · split
    · exact h
    · rfl
    · split
      · exact h
      · rfl

theorem addCluster_full (h : s.full = true) (c : ℕ) :
    (s.mfsAddClusterToChain c).2.full = true := by
  unfold FileState.mfsAddClusterToChain
  simp only
  split
  · exact h
  · split
    · exact h
    · split
      · exact h
      · obtain ⟨r, hr⟩ : ∃ r, FileState.mfsFindUnusedClusterFrom
            { s with d := (chainEnd s.d.vol.lastCluster c s.d).2.2 }
            ((chainEnd s.d.vol.lastCluster c s.d).2.1 + 1) = r := ⟨_, rfl⟩
        have hfull : r.2.full = true := by
          rw [← hr]
          exact findUnused_full (by exact h) _
        rw [hr]
        obtain ⟨o, s₁⟩ := r
        cases o with
        | none => exact hfull
        | some c' =>
          simp only
          split_ifs <;> exact hfull

theorem advance_full (h : x.s.full = true) (more : Bool) : (x.advance more).s.full = true := by
  have hnext : (x.s.mfsNextDataSector x.sectorIndex x.sectorNumber).2.2.2.full = true :=
    (nextDataSector_full _ _ _).trans h
  unfold Transfer.advance
  simp only
  split
  · split
    · split
      · exact addCluster_full hnext _
      · exact addCluster_full hnext _
    · exact hnext
  · exact hnext

theorem fill_full (h : x.s.full = true) (hw : Bool) (pos size : ℕ) (src : ℕ → Byte) :
    (x.fill hw pos size src).s.full = true := by
  have hread := (readDataSector_full x.s x.sectorNumber hw).trans h
  unfold Transfer.fill
  simp only
  split
  · exact hread
  · exact (fillDataSector_full _ _ _ _).trans hread

theorem writeZeros_full (numZeros n : ℕ) (h : x.s.full = true) :
    (Transfer.writeZeros numZeros n x).s.full = true := by
  induction n generalizing x with
  | zero => exact h
  | succ n ih =>
    unfold Transfer.writeZeros
    simp only
    split
    · have hfill := fill_full h (decide (x.sectorOffset ≠ 0)) x.sectorOffset
        (min (numZeros - x.zeros) (x.s.sectorSize - x.sectorOffset)) (fun _ => 0)
      split
      · exact hfill
      · apply ih
        split
        · apply advance_full
          exact hfill
        · exact hfill
    · exact h

theorem writeHead_full (h : x.s.full = true) (numBytes : ℕ) (buffer : ℕ → Byte) :
    (x.writeHead numBytes buffer).s.full = true := by
  unfold Transfer.writeHead
  simp only
  split
  · have hfill := fill_full h true x.sectorOffset
      (min numBytes (x.s.sectorSize - x.sectorOffset)) buffer
    split
    · exact hfill
    · split
      · apply advance_full
        exact hfill
      · exact hfill
  · exact h

theorem writeDirect_full (numBytes : ℕ) (buffer : ℕ → Byte) (n : ℕ) (h : x.s.full = true)
    (whole : ℕ) : (Transfer.writeDirect numBytes buffer n whole x).s.full = true := by
  induction n generalizing x whole with
  | zero => exact h
  | succ n ih =>
    unfold Transfer.writeDirect
    simp only
    split
    · split
      · exact h
      · apply ih
        apply advance_full
        exact h
    · exact h

theorem writeCopied_full (numBytes : ℕ) (buffer : ℕ → Byte) (n : ℕ) (h : x.s.full = true) :
    (Transfer.writeCopied numBytes buffer n x).s.full = true := by
  induction n generalizing x with
  | zero => exact h
  | succ n ih =>
    unfold Transfer.writeCopied
    simp only
    split
    · have hfill := fill_full h false 0 x.s.sectorSize (fun o => buffer (x.count + o))
      split
      · exact hfill
      · apply ih
        apply advance_full
        exact hfill
    · exact h

theorem writeWhole_full (h : x.s.full = true) (numBytes address : ℕ) (buffer : ℕ → Byte) :
    (x.writeWhole numBytes address buffer).s.full = true := by
  unfold Transfer.writeWhole
  simp only
  split
  · exact writeDirect_full _ _ _ h _
  · exact writeCopied_full _ _ _ h

theorem writeTail_full (h : x.s.full = true) (numBytes : ℕ) (buffer : ℕ → Byte) :
    (x.writeTail numBytes buffer).s.full = true := by
  unfold Transfer.writeTail
  simp only
  split
  · have hread := (readDataSector_full x.s x.sectorNumber
      (decide ((x.s.location + numBytes) % 2 ^ 32 < x.s.fileSize))).trans h
    split
    · exact hread
    · exact (fillDataSector_full _ _ _ _).trans hread
  · exact h

end Full

/-! ## The state of a write -/

/-- What no part of a write changes. -/
structure Fixed (s₀ s : FileState) : Prop where
  layout : s.layout = s₀.layout
  vol : s.d.vol = s₀.d.vol
  location : s.location = s₀.location
  fileSize : s.fileSize = s₀.fileSize

theorem Fixed.refl (s : FileState) : Fixed s s := ⟨rfl, rfl, rfl, rfl⟩

section Fixed

variable {s₀ : FileState} (h : Fixed s₀ s)

include h

theorem Fixed.onlyData (h' : OnlyData s s') : Fixed s₀ s' :=
  ⟨h'.layout.trans h.layout, h'.vol.trans h.vol, h'.location.trans h.location,
    h'.fileSize.trans h.fileSize⟩

theorem Fixed.onlyFat (h' : OnlyFat s s') : Fixed s₀ s' :=
  ⟨h'.layout.trans h.layout, h'.frame.vol.trans h.vol, h'.location.trans h.location,
    h'.fileSize.trans h.fileSize⟩

theorem Fixed.sectorSize : s.sectorSize = s₀.sectorSize := by
  rw [FileState.sectorSize, FileState.sectorSize, h.vol]

theorem Fixed.chainSectors (cl : List ℕ) : chainSectors s cl = chainSectors s₀ cl := by
  rw [Mfs.chainSectors, Mfs.chainSectors, h.layout]

theorem Fixed.fileSector (cl : List ℕ) (k : ℕ) : fileSector s cl k = fileSector s₀ cl k :=
  fileSector_congr h.layout cl k

end Fixed

/-- Of the file, the bytes below `P` are the new ones and those behind are the old ones. -/
structure WriteInv (s₀ : FileState) (x : Transfer) (cl : List ℕ) (P : ℕ)
    (new old : ℕ → Byte) : Prop where
  fixed : Fixed s₀ x.s
  file : FileInv x.s cl
  fits : P ≤ chainSectors s₀ cl * s₀.sectorSize
  room : s₀.fileSize ≤ chainSectors s₀ cl * s₀.sectorSize
  noError : x.error = .noError
  below : ∀ j < P, fileByte x.s cl j = new j
  rest : ∀ j, P ≤ j → j < s₀.fileSize → fileByte x.s cl j = old j

/-- The transfer is at sector `k`. -/
structure Stands (s₀ : FileState) (x : Transfer) (cl : List ℕ) (k : ℕ) : Prop where
  at_ : At x.s cl k
  index : k < chainSectors s₀ cl → x.sectorIndex = k % s₀.layout.sectorsPerCluster
  number : k < chainSectors s₀ cl → x.sectorNumber = fileSector s₀ cl k

/-- The data sector holds none of the sectors from `k` to `K`. -/
def Ahead (s₀ s : FileState) (cl : List ℕ) (k K : ℕ) : Prop :=
  ∀ k', k ≤ k' → k' < K → k' < chainSectors s₀ cl → fileSector s₀ cl k' ≠ s.dataSectorNumber

theorem chainSectors_append (s : FileState) (cl ext : List ℕ) :
    chainSectors s (cl ++ ext) =
      chainSectors s cl + ext.length * s.layout.sectorsPerCluster := by
  rw [chainSectors, chainSectors, List.length_append, Nat.add_mul]

theorem sector_lt {ss P n : ℕ} (h : P < n * ss) : P / ss < n :=
  Nat.div_lt_of_lt_mul (by rw [Nat.mul_comm]; exact h)

/-- Bytes of the file stay what they are when the table changes and the chain grows. -/
theorem fileByte_onlyFat {j : ℕ} (f : FileInv s cl) (h : OnlyFat s s') (ext : List ℕ)
    (hj : j < chainSectors s cl * s.sectorSize) :
    fileByte s' (cl ++ ext) j = fileByte s cl j := by
  have hlt := sector_lt hj
  have hpos := f.drive.sync.vol.sectorSize_pos
  rw [← h.fileByte f.drive.geometry f.chain hlt hpos, fileByte, fileByte, h.sectorSize,
    fileSector_append s' ext]
  rw [chainSectors, h.layout]
  exact hlt

/-- A chain that may have grown. -/
structure Grown (s₀ : FileState) (x : Transfer) (cl : List ℕ) (y : Transfer) (cl' : List ℕ) :
    Prop where
  sectors_le : chainSectors s₀ cl ≤ chainSectors s₀ cl'
  zeros : y.zeros = x.zeros
  count : y.count = x.count
  offset : y.sectorOffset = x.sectorOffset
  number : y.s.dataSectorNumber = x.s.dataSectorNumber
  ahead : ∀ k K, Ahead s₀ x.s cl k K → Ahead s₀ y.s cl' k K

theorem ahead_append {s₀ s s' : FileState} {cl ext : List ℕ} (hpos : 0 < s₀.layout.sectorsPerCluster)
    (hn : s'.dataSectorNumber = s.dataSectorNumber)
    (hext : ∀ c ∈ ext, ∀ r < s₀.layout.sectorsPerCluster,
      s.dataSectorNumber ≠ s₀.clusterToSector c + r) {k K : ℕ} (h : Ahead s₀ s cl k K) :
    Ahead s₀ s' (cl ++ ext) k K := by
  intro k' hk hK hlt
  rw [hn]
  by_cases hin : k' < chainSectors s₀ cl
  · rw [fileSector_append s₀ ext hin]
    exact h k' hk hK hin
  · -- a sector of a new cluster
    have hidx : cl.length ≤ k' / s₀.layout.sectorsPerCluster := by
      rw [Nat.le_div_iff_mul_le hpos]
      exact not_lt.mp hin
    have hidx' := cluster_index_lt hlt
    rw [List.length_append] at hidx'
    rw [fileSector, List.getD_append_right _ _ _ _ hidx]
    have hmem : ext.getD (k' / s₀.layout.sectorsPerCluster - cl.length) 0 ∈ ext :=
      getD_mem (by omega) 0
    exact (hext _ hmem _ (Nat.mod_lt _ hpos)).symm

variable {s₀ : FileState} {P : ℕ} {new old : ℕ → Byte}

/-- To the next sector, through a new cluster if there is something left to write. -/
theorem WriteInv.advance (w : WriteInv s₀ x cl P new old) (a : At x.s cl k)
    (hk : k < chainSectors s₀ cl) (hidx : x.sectorIndex = k % s₀.layout.sectorsPerCluster)
    (more : Bool) :
    (x.advance more).s.full = true ∨ ∃ cl', WriteInv s₀ (x.advance more) cl' P new old ∧
      Stands s₀ (x.advance more) cl' (k + 1) ∧ Grown s₀ x cl (x.advance more) cl' ∧
      (more = true → k + 1 < chainSectors s₀ cl') := by
  have hfix := w.fixed
  have g := w.file.drive.geometry
  have hspc : x.s.layout.sectorsPerCluster = s₀.layout.sectorsPerCluster := by rw [hfix.layout]
  have hpos : 0 < s₀.layout.sectorsPerCluster := hspc ▸ g.spc_pos
  have hkx : k < chainSectors x.s cl := by
    rw [hfix.chainSectors]
    exact hk
  obtain ⟨e, idx, num, s', hnext, honly, htable, hfirst, hfull, hat, hin, hend⟩ :=
    nextDataSector_spec w.file.linked a hkx x.sectorNumber
  rw [hspc, ← hidx] at hnext
  rw [hfix.chainSectors] at hin hend
  have hfile' := w.file.onlyFat honly htable hfirst
  -- the invariant after a step that leaves the chain as it is
  have hstay : ∀ y : Transfer, y.s = s' → y.error = .noError → WriteInv s₀ y cl P new old := by
    intro y hy he
    refine ⟨?_, ?_, w.fits, w.room, he, ?_, ?_⟩
    · rw [hy]
      exact hfix.onlyFat honly
    · rw [hy]
      exact hfile'
    · intro j hj
      have hjs : j < chainSectors x.s cl * x.s.sectorSize := by
        rw [hfix.chainSectors, hfix.sectorSize]
        exact lt_of_lt_of_le hj w.fits
      have hbyte := fileByte_onlyFat w.file honly [] hjs
      rw [List.append_nil] at hbyte
      rw [hy, hbyte]
      exact w.below j hj
    · intro j hlo hj
      have hjs : j < chainSectors x.s cl * x.s.sectorSize := by
        rw [hfix.chainSectors, hfix.sectorSize]
        exact lt_of_lt_of_le hj w.room
      have hbyte := fileByte_onlyFat w.file honly [] hjs
      rw [List.append_nil] at hbyte
      rw [hy, hbyte]
      exact w.rest j hlo hj
  have hgrown : ∀ y : Transfer, y.s = s' → y.zeros = x.zeros → y.count = x.count →
      y.sectorOffset = x.sectorOffset → Grown s₀ x cl y cl := by
    intro y hy hz hc ho
    refine ⟨le_refl _, hz, hc, ho, ?_, ?_⟩
    · rw [hy]
      exact honly.number
    · intro k₀ K hahead k' hk' hK hlt
      rw [hy, honly.number]
      exact hahead k' hk' hK hlt
  unfold Transfer.advance
  simp only [hnext]
  rcases Nat.lt_or_ge (k + 1) (chainSectors s₀ cl) with hlt | hge
  · obtain ⟨he, hi, hn⟩ := hin hlt
    right
    refine ⟨cl, ?_⟩
    subst he
    have hstands : ∀ y : Transfer, y.s = s' → y.sectorIndex = idx → y.sectorNumber = num →
        Stands s₀ y cl (k + 1) := by
      intro y hy hyi hyn
      refine ⟨hy ▸ hat, fun _ => ?_, fun _ => ?_⟩
      · rw [hyi, hi, hspc]
      · rw [hyn, hn, hfix.fileSector]
    cases more with
    | true =>
      simp only [if_true, reduceCtorEq, if_false]
      exact ⟨hstay _ rfl rfl, hstands _ rfl rfl rfl, hgrown _ rfl rfl rfl rfl, fun _ => hlt⟩
    | false =>
      simp only [Bool.false_eq_true, if_false]
      exact ⟨hstay _ rfl w.noError, hstands _ rfl rfl rfl, hgrown _ rfl rfl rfl rfl,
        fun h => h.elim⟩
  · have heq : k + 1 = chainSectors s₀ cl := by omega
    have he := hend heq
    subst he
    cases more with
    | false =>
      right
      simp only [Bool.false_eq_true, if_false]
      refine ⟨cl, hstay _ rfl w.noError, ⟨hat, fun h => ?_, fun h => ?_⟩,
        hgrown _ rfl rfl rfl rfl, fun h => h.elim⟩ <;> omega
    | true =>
      simp only [if_true]
      -- the handle stands behind the last cluster
      have hdiv : (k + 1) / s₀.layout.sectorsPerCluster = cl.length := by
        rw [heq, chainSectors, Nat.mul_div_cancel _ hpos]
      have hne : cl ≠ [] := by
        rintro rfl
        rw [chainSectors] at hk
        simp at hk
      have hlen := List.length_pos_of_ne_nil hne
      have hl' : s'.layout = s₀.layout := honly.layout.trans hfix.layout
      have hprev : s'.previousCluster = cl.getD (cl.length - 1) 0 := by
        have hp := hat.previous
        rw [hl', hdiv, previousOf, if_neg (by omega)] at hp
        exact hp
      rw [hprev]
      rcases addCluster_spec hfile' hne with hfull' | ⟨c, s₂, hadd, honly₂, hfile₂, hcur₂, hprev₂,
        _, hapart⟩
      · left
        split_ifs <;> exact hfull'
      · right
        rw [hadd]
        simp only [if_true]
        have hfix' := hfix.onlyFat honly
        have hfix₂ := hfix'.onlyFat honly₂
        have hsectors : chainSectors s₀ (cl ++ [c]) =
            chainSectors s₀ cl + s₀.layout.sectorsPerCluster := by
          rw [chainSectors_append, List.length_singleton, Nat.one_mul]
        have hcluster : ∀ c, s'.clusterToSector c = s₀.clusterToSector c := by
          intro c
          rw [FileState.clusterToSector, FileState.clusterToSector, hl']
        have hcluster₂ : s₂.clusterToSector c = s₀.clusterToSector c := by
          rw [FileState.clusterToSector, FileState.clusterToSector, hfix₂.layout]
        have hgetc : (cl ++ [c]).getD cl.length 0 = c := by
          rw [List.getD_append_right _ _ _ _ (le_refl _), Nat.sub_self]
          rfl
        have hbyte : ∀ j < chainSectors s₀ cl * s₀.sectorSize,
            fileByte s₂ (cl ++ [c]) j = fileByte x.s cl j := by
          intro j hj
          have hj' : j < chainSectors s' cl * s'.sectorSize := by
            rw [hfix'.chainSectors, hfix'.sectorSize]
            exact hj
          have hjx : j < chainSectors x.s cl * x.s.sectorSize := by
            rw [hfix.chainSectors, hfix.sectorSize]
            exact hj
          have hb := fileByte_onlyFat w.file honly [] hjx
          rw [List.append_nil] at hb
          rw [fileByte_onlyFat hfile' honly₂ [c] hj', hb]
        have hmono : chainSectors s₀ cl * s₀.sectorSize ≤
            chainSectors s₀ (cl ++ [c]) * s₀.sectorSize := by
          apply Nat.mul_le_mul_right
          omega
        refine ⟨cl ++ [c], ⟨hfix₂, hfile₂, w.fits.trans hmono, w.room.trans hmono, rfl, ?_, ?_⟩,
          ⟨⟨?_, ?_, ?_⟩, ?_, ?_⟩, ⟨by omega, rfl, rfl, rfl, ?_, ?_⟩, ?_⟩
        · intro j hj
          rw [hbyte j (lt_of_lt_of_le hj w.fits)]
          exact w.below j hj
        · intro j hlo hj
          rw [hbyte j (lt_of_lt_of_le hj w.room)]
          exact w.rest j hlo hj
        · rw [hfix₂.chainSectors]
          omega
        · simp only
          rw [hcur₂, hfix₂.layout, hdiv, getD_default (by simp) eofCluster 0, hgetc]
        · simp only
          rw [hprev₂, hprev, hfix₂.layout, hdiv, previousOf, if_neg (by omega),
            List.getD_append _ _ _ _ (by omega)]
        · intro _
          rw [heq, chainSectors, Nat.mul_mod_left]
        · intro _
          simp only
          rw [hcur₂, hcluster₂, fileSector, hdiv, hgetc, heq, chainSectors, Nat.mul_mod_left,
            Nat.add_zero]
        · exact honly₂.number.trans honly.number
        · intro k₀ K hahead
          apply ahead_append hpos (s := x.s) _ _ hahead
          · exact honly₂.number.trans honly.number
          · intro c' hc' r hr
            rw [List.mem_singleton.mp hc', ← honly.number, ← hcluster]
            apply hapart
            rw [hl']
            exact hr
        · intro _
          omega

/-! ## Bytes into one sector -/

/-- The sector and the offset of a byte. -/
theorem byte_split {ss k j : ℕ} (hpos : 0 < ss) : j / ss = k ↔ k * ss ≤ j ∧ j < k * ss + ss := by
  rw [Nat.div_eq_iff hpos]
  constructor <;> intro h <;> omega

theorem sector_start_le (j ss : ℕ) : j / ss * ss + j % ss = j := by
  rw [Nat.mul_comm]
  exact Nat.div_add_mod j ss

/-- The new bytes from `P` on are stored in the sector of `P`. -/
theorem WriteInv.stored (w : WriteInv s₀ x cl P new old) {size : ℕ} {src : ℕ → Byte}
    {hwRead : Bool} (hP : P < chainSectors s₀ cl * s₀.sectorSize)
    (hsize : P % s₀.sectorSize + size ≤ s₀.sectorSize) (hsrc : ∀ o < size, src o = new (P + o))
    (hkeep : hwRead = true ∨ P % s₀.sectorSize = 0 ∧
      (size = s₀.sectorSize ∨ s₀.fileSize ≤ P + size))
    (st : Stored x.s (fileSector s₀ cl (P / s₀.sectorSize)) (P % s₀.sectorSize) size src hwRead s')
    (hy : y.s = s') (he : y.error = .noError) : WriteInv s₀ y cl (P + size) new old := by
  have hfix := w.fixed
  have hpos : 0 < s₀.sectorSize := hfix.sectorSize ▸ w.file.drive.sync.vol.sectorSize_pos
  have hcap : P / s₀.sectorSize < chainSectors s₀ cl := sector_lt hP
  have hsplit := sector_start_le P s₀.sectorSize
  have hfixs := hfix.onlyData st.only
  obtain ⟨kP, hkP⟩ : ∃ kP, P / s₀.sectorSize = kP := ⟨_, rfl⟩
  obtain ⟨ss, hss⟩ : ∃ ss, s₀.sectorSize = ss := ⟨_, rfl⟩
  have hss' : s'.sectorSize = ss := hfixs.sectorSize.trans hss
  have hssx : x.s.sectorSize = ss := hfix.sectorSize.trans hss
  have hfit : P + size ≤ chainSectors s₀ cl * s₀.sectorSize := by
    have hmul := Nat.mul_le_mul_right s₀.sectorSize hcap
    rw [Nat.succ_mul] at hmul
    omega
  -- a byte of another sector is what it was
  have hother : ∀ j < chainSectors s₀ cl * s₀.sectorSize, j / s₀.sectorSize ≠ P / s₀.sectorSize →
      fileByte s' cl j = fileByte x.s cl j := by
    intro j hj hne
    have hjk := sector_lt hj
    have hgeo := w.file.drive.geometry
    rw [← hfix.chainSectors] at hjk hcap
    have hdata := fileSector_data hgeo w.file.chain hjk
    rw [fileByte, fileByte, hss', hssx, hfixs.fileSector, hfix.fileSector, ← hss]
    apply st.others
    · rw [← hfix.fileSector]
      exact hdata.2
    · intro heq
      rw [← hfix.fileSector, ← hfix.fileSector] at heq
      exact hne (fileSector_inj hgeo w.file.chain hjk hcap heq)
    · rw [hfix.sectorSize]
      exact Nat.mod_lt _ hpos
  -- a byte of this sector that is not stored is what it was
  have hsame : ∀ j, j / s₀.sectorSize = P / s₀.sectorSize →
      hwRead = true → ¬(P ≤ j ∧ j < P + size) → fileByte s' cl j = fileByte x.s cl j := by
    intro j hj hkeep' hout
    have hjs := sector_start_le j s₀.sectorSize
    rw [fileByte, fileByte, hss', hssx, hfixs.fileSector, hfix.fileSector, ← hss, hj]
    rw [hj] at hjs
    apply st.outside (Or.inl hkeep')
    · rw [hfix.sectorSize]
      exact Nat.mod_lt _ hpos
    · omega
  have hstart : ∀ j, j / s₀.sectorSize = P / s₀.sectorSize → P / s₀.sectorSize * s₀.sectorSize ≤ j ∧
      j < P / s₀.sectorSize * s₀.sectorSize + s₀.sectorSize := fun j hj => (byte_split hpos).mp hj
  refine ⟨hy ▸ hfixs, ?_, hfit, w.room, he, ?_, ?_⟩
  · rw [hy]
    refine ⟨st.inv, w.file.chain.sameTable st.only.table,
      st.only.firstCluster.trans w.file.first, ?_⟩
    -- the data sector holds a sector of the file
    intro c hmin hlast hfree r hr heq
    have hgeo := w.file.drive.geometry
    rw [st.only.vol] at hlast
    rw [st.only.table.entryCode hlast] at hfree
    rw [hfixs.layout] at hr
    rw [st.number, st.only.clusterToSector, ← hfix.fileSector, fileSector] at heq
    rw [← hfix.chainSectors] at hcap
    have hmem := getD_mem (cluster_index_lt hcap) 0
    have hrng := w.file.chain.range _ hmem
    have hspc : x.s.layout.sectorsPerCluster = s₀.layout.sectorsPerCluster := by rw [hfix.layout]
    obtain ⟨hcc, _⟩ := clusterToSector_inj hrng.1 hmin (Nat.mod_lt _ hgeo.spc_pos)
      (by rw [hspc]; exact hr) heq
    rw [hcc] at hmem
    exact w.file.chain.not_unused hmem hfree
  · intro j hj
    rw [hy]
    by_cases hjP : j < P
    · rw [← w.below j hjP]
      by_cases hk : j / s₀.sectorSize = P / s₀.sectorSize
      · rcases hkeep with hk' | ⟨hzero, _⟩
        · exact hsame j hk hk' (by omega)
        · have hb := hstart j hk
          omega
      · exact hother j (by omega) hk
    · have hk : j / s₀.sectorSize = P / s₀.sectorSize := by
        rw [byte_split hpos]
        omega
      have hjs := sector_start_le j s₀.sectorSize
      have hlt := Nat.mod_lt j hpos
      rw [hk] at hjs
      rw [fileByte, hss', hfixs.fileSector, ← hss, hk,
        st.inside _ (by rw [hfix.sectorSize]; exact hlt) (by omega) (by omega), hsrc _ (by omega)]
      congr 1
      omega
  · intro j hlo hj
    rw [hy, ← w.rest j (by omega) hj]
    by_cases hk : j / s₀.sectorSize = P / s₀.sectorSize
    · have hb := hstart j hk
      rcases hkeep with hk' | ⟨hzero, hfull⟩
      · exact hsame j hk hk' (by omega)
      · omega
    · exact hother j (lt_of_lt_of_le hj w.room) hk

end Mqx.Mfs
