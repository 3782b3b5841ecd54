import Mathlib.Logic.Relation
import Mqx.Mfs.WriteStages

/-!
# A handle as a file of bytes

A file of bytes has a size, and a write replaces a range of its bytes, with zeros in the gap if
the range starts behind the end. In every run of seeks and writes on one handle the file on the
drive is this file of bytes, as long as clusters are found and no sector is written directly
while the data sector holds it.
-/

namespace Mqx.Mfs

/-! ## Files of bytes -/

/-- What a file is for its users. -/
structure ByteFile where
  size : ℕ
  byte : ℕ → Byte

namespace ByteFile

/-- `n` bytes are written at `pos`. -/
def write (f : ByteFile) (pos n : ℕ) (buffer : ℕ → Byte) : ByteFile where
  size := max f.size (pos + n)
  byte j :=
    if pos ≤ j ∧ j < pos + n then buffer (j - pos) else if j < f.size then f.byte j else 0

end ByteFile

/-- The first `f.size` bytes of the clusters are those of `f`. -/
structure Holds (s : FileState) (cl : List ℕ) (f : ByteFile) : Prop where
  size : s.fileSize = f.size
  byte : ∀ j < f.size, fileByte s cl j = f.byte j

/-! ## Seeking -/

/-- The loop of `MFS_Move_file_pointer` over the clusters that are skipped: the error, the current
and the previous cluster. -/
def skipClusters : ℕ → ℕ → ℕ → Drive → MfsError × ℕ × ℕ × Drive
  | 0, current, previous, d => (.noError, current, previous, d)
  | n + 1, current, _, d =>
    let r := mfsGetClusterFromFat d current
    if r.1 ≠ .noError then (r.1, r.2.1.toNat, current, r.2.2)
    else if r.2.1 = clusterEof then (.eof, r.2.1.toNat, current, r.2.2)
    else if r.2.1.toNat < clusterMinGood ∨ r.2.1.toNat > d.vol.lastCluster then
      (.badDiskUnit, r.2.1.toNat, current, r.2.2)
    else skipClusters n r.2.1.toNat current r.2.2

namespace FileState

variable (s : FileState)

/-- The end of `MFS_Move_file_pointer`. -/
def moveFinish (after : ℕ) (r : MfsError × ℕ × ℕ × Drive) : MfsError × FileState :=
  let s := { s with d := r.2.2.2 }
  (r.1, (if r.1 = .noError ∨ r.1 = .eof then
    { s with savedPosition := after, previousCluster := r.2.2.1, currentCluster := r.2.1 }
    else s).mfsUnlock.2)

/-- `MFS_Move_file_pointer`, which moves to `LOCATION` or to the end of the file. -/
def mfsMoveFilePointer : MfsError × FileState :=
  let after := min s.location s.fileSize
  let error := if s.location > s.fileSize then .eof else .noError
  let before :=
    if s.currentCluster = 0 then 0 else s.savedPosition / s.clusterSize * s.clusterSize
  let s := if s.currentCluster = 0 then
      { s with currentCluster := s.firstCluster, previousCluster := 0 }
    else s
  if after = 0 then s.moveFinish after (error, s.firstCluster, 0, s.d)
  else if after = before then
    s.moveFinish after (error, s.currentCluster, s.previousCluster, s.d)
  else
    let before' := if after < before then 0 else before
    let current := if after < before then s.firstCluster else s.currentCluster
    let previous := if after < before then 0 else s.previousCluster
    if current ≠ 0 ∧ current ≠ eofCluster then
      let skip := (after - before') / s.clusterSize
      let r := skipClusters skip current previous s.d
      s.moveFinish after (if skip = 0 then error else r.1, r.2)
    else s.moveFinish after (.eof, current, previous, s.d)

end FileState

/-! ## What a handle keeps -/

/-- The file is on the drive, and the handle stands at its saved position. -/
structure InPlace (s : FileState) (cl : List ℕ) : Prop where
  file : FileInv s cl
  room : s.fileSize ≤ chainSectors s cl * s.sectorSize
  le : s.savedPosition ≤ s.fileSize
  place : s.currentCluster = 0 ∧ s.savedPosition = 0 ∨
    cl ≠ [] ∧ At s cl (s.savedPosition / s.sectorSize)

variable {s s' s₀ : FileState} {x : Transfer} {cl : List ℕ} {K L n : ℕ} {f : ByteFile}

/-- The handle and the bytes of the file are the same. -/
structure SameFile (s s' : FileState) (cl : List ℕ) : Prop where
  fixed : Fixed s s'
  file : FileInv s' cl
  savedPosition : s'.savedPosition = s.savedPosition
  currentCluster : s'.currentCluster = s.currentCluster
  previousCluster : s'.previousCluster = s.previousCluster
  byte : ∀ j < chainSectors s cl * s.sectorSize, fileByte s' cl j = fileByte s cl j

theorem SameFile.at (h : SameFile s s' cl) {k : ℕ} (a : At s cl k) : At s' cl k :=
  a.congr h.fixed.layout rfl h.currentCluster h.previousCluster

/-- A handle that stands somewhere has a cluster. -/
theorem At.current_ne {k : ℕ} (a : At s cl k) (f : FileInv s cl) : s.currentCluster ≠ 0 := by
  rw [a.current]
  rcases Nat.lt_or_ge (k / s.layout.sectorsPerCluster) cl.length with hlt | hge
  · have hmem := f.chain.range _ (getD_mem hlt eofCluster)
    unfold clusterMinGood at hmem
    omega
  · rw [List.getD_eq_default _ _ hge]
    decide

/-- The positions of the handle do not matter for the file. -/
theorem FileInv.handle (f : FileInv s cl) (hd : s'.d = s.d) (hl : s'.layout = s.layout)
    (hn : s'.dataSectorNumber = s.dataSectorNumber)
    (hdirty : s'.dataSectorDirty = s.dataSectorDirty) (hbytes : s'.dataSector = s.dataSector)
    (hfirst : s'.firstCluster = s.firstCluster) :
    FileInv s' cl := by
  obtain ⟨d, layout, next, number, dirty, bytes, loc, saved, cur, prev, first, size, full⟩ := s
  obtain ⟨d', layout', next', number', dirty', bytes', loc', saved', cur', prev', first', size',
    full'⟩ := s'
  simp only at hd hl hn hdirty hbytes hfirst
  subst hd hl hn hdirty hbytes hfirst
  have i := f.drive
  have g := i.geometry
  exact ⟨⟨i.sync, i.works, ⟨g.spc_pos, g.table, g.inDevice, g.mega_lt, g.codes⟩, i.place, i.dirty,
    i.clean⟩, f.chain, f.first, f.apart⟩

theorem unlock_spec (f : FileInv s cl) :
    ∃ s', s.mfsUnlock = (.noError, s') ∧ SameFile s s' cl := by
  have hdata : ∃ s₁, (if s.layout.writeCachePolicy = .writeThrough then
      s.mfsFlushDataSectorBuffer else (.noError, s)) = (.noError, s₁) ∧ SameFile s s₁ cl := by
    split
    · obtain ⟨s₁, hflush, honly, hinv, hnum, -, hview⟩ := flush_inv f.drive
      have hfix := (Fixed.refl s).onlyData honly
      refine ⟨s₁, hflush, hfix, ⟨hinv, f.chain.sameTable honly.table,
        honly.firstCluster.trans f.first, ?_⟩, honly.savedPosition, honly.currentCluster,
        honly.previousCluster, fun j _ => ?_⟩
      · intro c hmin hlast hfree
        rw [honly.vol] at hlast
        rw [honly.table.entryCode hlast] at hfree
        rw [hnum, honly.clusterToSector, honly.layout]
        exact f.apart c hmin hlast hfree
      · rw [fileByte, fileByte, hfix.sectorSize, hfix.fileSector]
        exact hview _ _ (Nat.mod_lt _ f.drive.sync.vol.sectorSize_pos)
    · exact ⟨s, rfl, Fixed.refl s, f, rfl, rfl, rfl, fun _ _ => rfl⟩
  obtain ⟨s₁, heq, h₁⟩ := hdata
  unfold FileState.mfsUnlock
  simp only [heq]
  split
  · have f₁ := h₁.file
    obtain ⟨d', hflush, hframe⟩ := mfsFlushFatCache_works f₁.drive.sync f₁.drive.works.reads
    obtain ⟨dev, io, hd', hsync, hbytes⟩ := mfsFlushFatCache_noError f₁.drive.sync hflush
    have htable : SameTable s₁.d d' :=
      ⟨hframe.vol, fun e he => rawEntry_congr f₁.drive.sync.vol hframe.vol hbytes he⟩
    have honly : OnlyFat s₁ { s₁ with d := d' } :=
      ⟨rfl, rfl, rfl, rfl, rfl, rfl, rfl, hsync, hframe⟩
    rw [hflush]
    refine ⟨_, rfl, h₁.fixed.onlyFat honly, f₁.onlyFat honly htable rfl, h₁.savedPosition,
      h₁.currentCluster, h₁.previousCluster, fun j hj => ?_⟩
    have hj' : j < chainSectors s₁ cl * s₁.sectorSize := by
      rw [h₁.fixed.chainSectors, h₁.fixed.sectorSize]
      exact hj
    have hbyte := fileByte_onlyFat f₁ honly [] hj'
    rw [List.append_nil] at hbyte
    rw [hbyte]
    exact h₁.byte j hj
  · exact ⟨s₁, rfl, h₁⟩

/-! ## The parts of a call -/

/-- The state in which the loops of a write start. -/
structure Ready (s s' : FileState) (cl cl' : List ℕ) (k : ℕ) : Prop where
  fixed : Fixed s s'
  file : FileInv s' cl'
  at_ : At s' cl' k
  inside : k < chainSectors s' cl'
  mono : chainSectors s cl ≤ chainSectors s cl'
  byte : ∀ j < chainSectors s cl * s.sectorSize, fileByte s' cl' j = fileByte s cl j
  ahead : ∀ k' K, Ahead s s cl k' K → Ahead s s' cl' k' K

/-- The first cluster of an empty file. -/
theorem writeSetup_empty (i : InPlace s []) (hcur : s.currentCluster = 0) :
    s.writeSetup.2.full = true ∨
    ∃ s' cl', s.writeSetup = (.noError, s') ∧ Ready s s' [] cl' 0 := by
  have hfirst : s.firstCluster = 0 := i.file.first
  have hdrive := i.file.drive
  have g := hdrive.geometry
  unfold FileState.writeSetup
  simp only [if_pos hcur, hfirst, if_true]
  rcases findUnused_spec (s := { s with
      previousCluster := 0, currentCluster := 0, firstCluster := 0 }) hdrive.sync
    hdrive.works s.nextFreeCluster with ⟨d', hfind, -⟩ | ⟨c, d', hfind, hsync, hframe, htable, hmin,
      hlast, hfree⟩
  · left
    rw [hfind]
  · right
    rw [hfind]
    simp only at hlast hfree ⊢
    have hlast' : c ≤ d'.vol.lastCluster := by rw [htable.vol]; exact hlast
    have hfree' : entryCode d' c = clusterUnused := by rw [htable.entryCode hlast]; exact hfree
    obtain ⟨d₂, hput, hsync₂, hframe₂, hp⟩ := mfsPutFat_works hsync (hframe.works hdrive.works) hmin
      hlast' clusterEof
    rw [hput]
    simp only [if_true]
    have honly : OnlyFat s { s with
        d := d₂, nextFreeCluster := c, firstCluster := c, previousCluster := 0,
        currentCluster := c } :=
      ⟨rfl, rfl, rfl, rfl, rfl, rfl, rfl, hsync₂, hframe.trans hframe₂⟩
    have hfix := (Fixed.refl s).onlyFat honly
    refine ⟨_, [c], rfl, hfix, ⟨honly.driveInv hdrive, FatChain.single hmin hlast' hfree' hp, rfl,
      ?_⟩, ⟨Nat.zero_le _, ?_, ?_⟩, ?_, ?_, ?_, ?_⟩
    · -- what is free now was free before
      intro c' hmin' hlast'' hfree'' r hr
      have hmem : c' ∈ freeClusters d₂ := mem_freeClusters.mpr ⟨hmin', hlast'', hfree''⟩
      rw [hp.freeClusters_eof, htable.freeClusters, Finset.mem_erase, mem_freeClusters] at hmem
      exact i.file.apart c' hmin' hmem.2.2.1 hmem.2.2.2 r hr
    · simp only [Nat.zero_div, List.getD_cons_zero]
    · simp only [Nat.zero_div, previousOf, if_true]
    · rw [hfix.chainSectors]
      simpa [chainSectors] using g.spc_pos
    · simp [chainSectors]
    · intro j hj
      simp [chainSectors] at hj
    · intro k' K hah
      refine @ahead_append _ _ _ [] _ g.spc_pos rfl ?_ _ _ hah
      intro c' hc' r hr
      rw [List.mem_singleton.mp hc']
      exact i.file.apart c hmin hlast hfree r hr

/-- The cluster of the position, which is added if the position is the end of the chain. -/
theorem writeSetup_spec (i : InPlace s cl) :
    s.writeSetup.2.full = true ∨
    ∃ s' cl', s.writeSetup = (.noError, s') ∧
      Ready s s' cl cl' (s.savedPosition / s.sectorSize) := by
  have g := i.file.drive.geometry
  have hrange : ∀ c ∈ cl, c ≤ s.d.vol.lastCluster := fun c hc => (i.file.chain.range c hc).2
  rcases i.place with ⟨hcur, hpos⟩ | ⟨hne, hat⟩
  · rw [hpos, Nat.zero_div]
    cases cl with
    | nil => exact writeSetup_empty i hcur
    | cons c l =>
      right
      have hfirst : s.firstCluster = c := i.file.first
      have hc := (i.file.chain.range c (by simp)).1
      have hc0 : c ≠ 0 := by
        rintro rfl
        exact absurd hc (by decide)
      refine ⟨{ s with previousCluster := 0, currentCluster := s.firstCluster }, c :: l, ?_, ?_⟩
      · simp only [FileState.writeSetup, if_pos hcur, hfirst, if_neg hc0]
      · have honly : OnlyFat s { s with previousCluster := 0, currentCluster := s.firstCluster } :=
          ⟨rfl, rfl, rfl, rfl, rfl, rfl, rfl, i.file.drive.sync, FatFrame.refl _⟩
        refine ⟨(Fixed.refl s).onlyFat honly, i.file.onlyFat honly (SameTable.refl _) rfl,
          ⟨Nat.zero_le _, ?_, ?_⟩, ?_, le_refl _, fun _ _ => rfl, fun _ _ h => h⟩
        · simp only [Nat.zero_div, List.getD_cons_zero, hfirst]
        · simp only [Nat.zero_div, previousOf, if_true]
        · simpa [chainSectors] using g.spc_pos
  · have hlast := g.last_lt
    have hcodes := hat.current_ne i.file
    unfold FileState.writeSetup
    rw [if_neg hcodes]
    by_cases heof : s.currentCluster = eofCluster
    · rw [if_pos heof]
      have hk := (hat.lt_of_ne hrange g).mp heof
      have hlen := List.length_pos_of_ne_nil hne
      have hidx : s.savedPosition / s.sectorSize / s.layout.sectorsPerCluster = cl.length := by
        rw [hk, chainSectors, Nat.mul_div_cancel _ g.spc_pos]
      have hprev : s.previousCluster = cl.getD (cl.length - 1) 0 := by
        rw [hat.previous, hidx, previousOf, if_neg (by omega)]
      rw [hprev]
      rcases addCluster_spec i.file hne with hfull | ⟨c, s', hadd, honly, hfile, hcur', hprev', -,
        hapart⟩
      · exact Or.inl hfull
      · right
        have hfix := (Fixed.refl s).onlyFat honly
        have hsec : chainSectors s (cl ++ [c]) =
            chainSectors s cl + s.layout.sectorsPerCluster := by
          rw [chainSectors_append, List.length_singleton, Nat.one_mul]
        have hspc := g.spc_pos
        refine ⟨s', cl ++ [c], hadd, hfix, hfile, ⟨?_, ?_, ?_⟩, ?_, by omega, ?_, ?_⟩
        · rw [hfix.chainSectors]
          omega
        · rw [hcur', hfix.layout, hidx, List.getD_append_right _ _ _ _ (le_refl _), Nat.sub_self]
          rfl
        · rw [hprev', hprev, hfix.layout, hidx, previousOf, if_neg (by omega),
            List.getD_append _ _ _ _ (by omega)]
        · rw [hfix.chainSectors]
          omega
        · exact fun j hj => fileByte_onlyFat i.file honly [c] hj
        · intro k' K hah
          refine ahead_append hspc honly.number ?_ hah
          intro c' hc' r hr
          rw [List.mem_singleton.mp hc']
          exact hapart r hr
    · right
      have hk : s.savedPosition / s.sectorSize < chainSectors s cl :=
        lt_of_le_of_ne hat.le fun h => heof ((hat.lt_of_ne hrange g).mpr h)
      have hle : s.currentCluster ≤ s.d.vol.lastCluster := by
        rw [hat.current]
        exact hrange _ (getD_mem (cluster_index_lt hk) _)
      rw [if_neg heof, if_neg (by omega)]
      exact ⟨s, cl, rfl, Fixed.refl s, i.file, hat, hk, le_refl _, fun _ _ => rfl, fun _ _ h => h⟩

variable {new old : ℕ → Byte} {buffer : ℕ → Byte}

/-- The whole sectors, with a copy or without one. -/
theorem writeWhole_spec (address : ℕ) (hbuf : ∀ o < n, buffer o = new (L + o)) (hle : x.count ≤ n)
    (hhead : x.count < n → (L + x.count) % s₀.sectorSize = 0 ∧
      (x.Aligned address → Ahead s₀ x.s cl ((L + x.count) / s₀.sectorSize)
        ((L + n) / s₀.sectorSize)))
    (g : Going s₀ x cl (L + x.count) (x.count < n) new old) :
    (x.writeWhole n address buffer).s.full = true ∨
    ∃ y cl', x.writeWhole n address buffer = y ∧
      Going s₀ y cl' (L + y.count) (y.count < n) new old ∧ y.count ≤ n ∧ y.zeros = x.zeros ∧
      (y.count < n → (L + y.count) % s₀.sectorSize = 0 ∧ n < y.count + s₀.sectorSize) := by
  have hss : x.s.sectorSize = s₀.sectorSize := g.inv.fixed.sectorSize
  have hpos := g.inv.file.sectorSize_pos g.inv.fixed
  obtain ⟨m, hm⟩ : ∃ m, (n - x.count) / s₀.sectorSize = m := ⟨_, rfl⟩
  have hsplit := sector_start_le (n - x.count) s₀.sectorSize
  have hrest := Nat.mod_lt (n - x.count) hpos
  rw [hm] at hsplit
  have hlt : 0 < m → x.count < n := by
    intro h
    have := Nat.mul_le_mul_right s₀.sectorSize h
    omega
  have hend : ∀ y : Transfer, y.count = x.count + m * s₀.sectorSize → y.count ≤ n ∧
      (y.count < n → (L + y.count) % s₀.sectorSize = 0 ∧ n < y.count + s₀.sectorSize) := by
    intro y hy
    refine ⟨by omega, fun hyn => ⟨?_, by omega⟩⟩
    rw [hy, ← Nat.add_assoc, Nat.add_mul_mod_self_right]
    exact (hhead (by omega)).1
  unfold Transfer.writeWhole
  simp only [hss, hm]
  by_cases hal : x.Aligned address
  · rw [if_pos hal]
    have hK : (L + x.count) / s₀.sectorSize + m ≤ (L + n) / s₀.sectorSize := by
      rw [← Nat.add_mul_div_right _ _ hpos]
      exact Nat.div_le_div_right (by omega)
    rcases writeDirect_spec hbuf m m (le_refl _) (by omega) (fun h => (hhead (hlt h)).1) hK
      (fun h => (hhead (hlt h)).2 hal) g with hfull | ⟨y, cl', hy, gy, hc, hz⟩
    · exact Or.inl hfull
    · exact Or.inr ⟨y, cl', hy, gy, (hend y hc).1, hz, (hend y hc).2⟩
  · rw [if_neg hal]
    rcases writeCopied_spec hbuf m (by omega) (fun h => (hhead (hlt h)).1) g with
      hfull | ⟨y, cl', hy, gy, hc, hz⟩
    · exact Or.inl hfull
    · exact Or.inr ⟨y, cl', hy, gy, (hend y hc).1, hz, (hend y hc).2⟩

/-- What is left for the last sector. -/
theorem writeTail_spec (hbuf : ∀ o < n, buffer o = new (L + o)) (hle : x.count ≤ n)
    (hloc : s₀.location = L) (hlim : L + n < 2 ^ 32)
    (hrest : x.count < n → (L + x.count) % s₀.sectorSize = 0 ∧ n < x.count + s₀.sectorSize)
    (g : Going s₀ x cl (L + x.count) (x.count < n) new old) :
    ∃ y, x.writeTail n buffer = y ∧ WriteInv s₀ y cl (L + n) new old ∧
      At y.s cl ((L + n) / s₀.sectorSize) ∧ y.count = n ∧ y.zeros = x.zeros := by
  unfold Transfer.writeTail
  by_cases hlt : x.count < n
  · obtain ⟨h0, htail⟩ := hrest hlt
    have hpos := g.inv.file.sectorSize_pos g.inv.fixed
    have hP := g.room hlt
    have hk := sector_lt hP
    have hnum := g.stands.number hk
    have hfix := g.inv.fixed
    obtain ⟨s₁, s', hload, hstore, st⟩ := store_spec g.inv.file.drive
      (g.inv.file.dataSector g.inv.fixed hk)
      (decide ((x.s.location + n) % 2 ^ 32 < x.s.fileSize)) 0 (n - x.count)
      (fun o => buffer (x.count + o))
    rw [if_pos ⟨hlt, g.inv.noError⟩]
    simp only [hnum, hload, ne_eq, not_true_eq_false, if_false, hstore]
    have hsum : L + x.count + (n - x.count) = L + n := by omega
    rw [← h0] at st
    have hfit : (L + x.count) % s₀.sectorSize + (n - x.count) ≤ s₀.sectorSize := by omega
    have hw := g.inv.stored (y := { x with s := s', error := .noError, count := n }) hP hfit
      (fun o ho => by
        rw [hbuf _ (by omega)]
        congr 1
        omega) (by
        rw [hfix.location, hfix.fileSize, hloc, Nat.mod_eq_of_lt hlim]
        by_cases hread : L + n < s₀.fileSize
        · exact Or.inl (by simp [hread])
        · exact Or.inr ⟨h0, Or.inr (by omega)⟩) st rfl rfl
    rw [hsum] at hw
    refine ⟨_, rfl, hw.congr rfl rfl, ?_, rfl, rfl⟩
    rcases end_of_sector hpos hfit with
      ⟨hfull, -, -⟩ | ⟨-, hdiv, -⟩
    · omega
    · rw [← hsum, hdiv]
      exact g.stands.at_.congr st.only.layout rfl st.only.currentCluster st.only.previousCluster
  · have hcn : x.count = n := by omega
    rw [if_neg (by simp [hlt])]
    rw [← hcn]
    exact ⟨x, rfl, g.inv, g.stands.at_, rfl, rfl⟩

/-! ## A call -/

/-- The data sector holds none of the sectors that a write starts with and writes directly. -/
def Clear (s : FileState) (cl : List ℕ) (n address : ℕ) : Prop :=
  address % 2 ^ 32 &&& s.layout.alignmentMask = 0 → s.location ≤ s.fileSize →
    s.location % s.sectorSize = 0 →
      Ahead s s cl (s.location / s.sectorSize) ((s.location + n) / s.sectorSize)

theorem writeFinish_full (h : x.s.full = true) (location : ℕ) :
    (FileState.writeFinish location x).2.2.full = true :=
  (unlock_full _).trans h

/-- The loops of a write from the position on. -/
theorem write_stages (address : ℕ) {P₀ K : ℕ} {old : ℕ → Byte} (hn : 0 < n) (hlim : L + n < 2 ^ 32)
    (hloc : s₀.location = L) (hP : P₀ = min L s₀.fileSize)
    (hzero : ∀ j, P₀ ≤ j → j < L → new j = 0) (hbuf : ∀ o < n, buffer o = new (L + o))
    (hoff : x.sectorOffset = P₀ % s₀.sectorSize) (hz : x.zeros = 0) (hc : x.count = 0)
    (g : Going s₀ x cl P₀ True new old)
    (hK : (L % s₀.sectorSize = 0 → address % 2 ^ 32 &&& s₀.layout.alignmentMask = 0) →
      K = (L + n) / s₀.sectorSize)
    (hahead : L ≤ s₀.fileSize → L % s₀.sectorSize = 0 → Ahead s₀ x.s cl (L / s₀.sectorSize) K) :
    let y := (((Transfer.writeZeros (L - P₀) (L - P₀) x).writeHead n buffer).writeWhole n address
      buffer).writeTail n buffer
    y.s.full = true ∨ ∃ cl', WriteInv s₀ y cl' (L + n) new old ∧
      At y.s cl' ((L + n) / s₀.sectorSize) ∧ y.count = n ∧ y.zeros = L - P₀ := by
  intro y
  have hzeros : (Transfer.writeZeros (L - P₀) (L - P₀) x).s.full = true ∨
      ∃ z cl', Transfer.writeZeros (L - P₀) (L - P₀) x = z ∧ Going s₀ z cl' L True new old ∧
        z.zeros = L - P₀ ∧ z.count = 0 ∧ z.sectorOffset = L % s₀.sectorSize ∧
        (L % s₀.sectorSize = 0 → Ahead s₀ z.s cl' (L / s₀.sectorSize) K) := by
    by_cases hgap : L ≤ s₀.fileSize
    · have hPL : P₀ = L := by omega
      subst hPL
      rw [Nat.sub_self]
      exact Or.inr ⟨x, cl, rfl, g, hz, hc, hoff, hahead hgap⟩
    · have hsum : P₀ + (L - P₀) = L := by omega
      rcases @writeZeros_spec s₀ x cl K new old P₀ (L - P₀) (by omega)
        (fun j hlo hj => hzero j hlo (by omega)) (L - P₀) (by omega) (by omega)
        (by rw [hz, Nat.add_zero]; exact hoff) (by rw [hz, Nat.add_zero]; exact g)
        (fun h => absurd h (by omega)) with hfull | ⟨z, cl', hrun, gz, hzz, hzc, hzo, hah⟩
      · exact Or.inl hfull
      · rw [hsum] at gz hzo hah
        exact Or.inr ⟨z, cl', hrun, gz, hzz, hzc.trans hc, hzo, hah (by omega)⟩
  rcases hzeros with hfull | ⟨z, cl₁, hrun, gz, hzz, hzc, hzo, hah⟩
  · exact Or.inl (writeTail_full (writeWhole_full (writeHead_full hfull _ _) _ _ _) _ _)
  rcases writeHead_spec hn hbuf hzo hzc gz hah with hfull | ⟨h, cl₂, hhead, gh, hhc, hhz, hnext⟩
  · exact Or.inl (writeTail_full (writeWhole_full (hrun ▸ hfull) _ _ _) _ _)
  have hhle : h.count ≤ n := by
    rw [hhc, headSize]
    split_ifs
    · exact Nat.zero_le _
    · exact Nat.min_le_left _ _
  have hlay : h.s.layout = s₀.layout := gh.inv.fixed.layout
  rcases writeWhole_spec address hbuf hhle (fun hlt => ⟨(hnext hlt).1, fun hal => by
      have hKn : K = (L + n) / s₀.sectorSize := by
        refine hK fun h0 => ?_
        have hcount : h.count = 0 := by rw [hhc, headSize, if_pos h0]
        rwa [Transfer.Aligned, hcount, Nat.add_zero, hlay] at hal
      rw [← hKn]
      exact (hnext hlt).2⟩) gh with hfull | ⟨v, cl₃, hwhole, gv, hvle, hvz, hvr⟩
  · refine Or.inl (writeTail_full ?_ _ _)
    rw [hrun, hhead]
    exact hfull
  obtain ⟨t, htail, hw, hat, hcount, htz⟩ := writeTail_spec hbuf hvle hloc hlim hvr gv
  have hy : y = t := by rw [← htail, ← hwhole, ← hhead, ← hrun]
  rw [hy]
  exact Or.inr ⟨cl₃, hw, hat, hcount, by rw [htz, hvz, hhz, hzz]⟩

/-- A transfer starts at its position. -/
theorem transfer_stands {P₀ : ℕ} {cl' : List ℕ} (at_ : At s cl' (P₀ / s.sectorSize))
    (inside : P₀ / s.sectorSize < chainSectors s cl') :
    Stands s (s.transfer P₀) cl' (P₀ / s.sectorSize) := by
  have hidx : P₀ % s.clusterSize / s.sectorSize =
      P₀ / s.sectorSize % s.layout.sectorsPerCluster := by
    rw [FileState.clusterSize, Nat.mod_mul_left_div_self]
  refine ⟨at_, fun _ => hidx, fun _ => ?_⟩
  have hcur := at_.current
  rw [getD_default (cluster_index_lt inside) eofCluster 0] at hcur
  simp only [FileState.transfer]
  rw [hidx, hcur, fileSector]

/-- A write to the file is a write to the file of bytes, unless a search for a free cluster has
failed. -/
theorem write_refines {address : ℕ} (i : InPlace s cl) (h : Holds s cl f)
    (hpos : s.savedPosition = min s.location s.fileSize) (haddr : address ≠ 0) (hn : 0 < n)
    (hlim : s.location + n < 2 ^ 32) (hclear : Clear s cl n address) :
    (s.mfsWrite n address buffer).2.2.full = true ∨
    ∃ s' cl', s.mfsWrite n address buffer = (.noError, n, s') ∧ InPlace s' cl' ∧
      Holds s' cl' (f.write s.location n buffer) ∧ s'.location = s.location + n ∧
      s'.savedPosition = s.location + n := by
  have hro := i.file.drive.works.writable
  have hsetup := writeSetup_spec i
  unfold FileState.mfsWrite
  rw [if_neg (by simp [hro]), if_neg haddr, if_neg (by omega)]
  obtain ⟨r, hr⟩ : ∃ r, s.writeSetup = r := ⟨_, rfl⟩
  rw [hr] at hsetup ⊢
  simp only
  rcases hsetup with hfull | ⟨s₀, cl', hsuc, ready⟩
  · left
    split_ifs
    · exact (unlock_full _).trans hfull
    · exact writeFinish_full (writeTail_full (writeWhole_full (writeHead_full
        (writeZeros_full _ _ hfull) _ _) _ _ _) _ _) _
  obtain rfl := hsuc
  simp only [ne_eq, not_true_eq_false, if_false]
  have hfix := ready.fixed
  have hss := hfix.sectorSize
  have hloc := hfix.location
  have hsize := hfix.fileSize
  have hcap : ∀ j < s.fileSize, fileByte s₀ cl' j = f.byte j := by
    intro j hj
    rw [ready.byte j (lt_of_lt_of_le hj i.room)]
    exact h.byte j (by rw [← h.size]; exact hj)
  obtain ⟨P₀, hP₀⟩ : ∃ P₀, min s₀.location s₀.fileSize = P₀ := ⟨_, rfl⟩
  rw [hP₀]
  have hP : P₀ = min s.location s.fileSize := by rw [← hP₀, hloc, hsize]
  obtain ⟨new, hnew⟩ : ∃ new, (f.write s.location n buffer).byte = new := ⟨_, rfl⟩
  have hbyte : ∀ j, new j = if s.location ≤ j ∧ j < s.location + n then buffer (j - s.location)
      else if j < f.size then f.byte j else 0 := by
    intro j
    rw [← hnew]
    rfl
  have hat := ready.at_
  have hin := ready.inside
  rw [hpos, ← hP, ← hss] at hat hin
  have hsec := hfix.chainSectors cl'
  have hmono := Nat.mul_le_mul_right s₀.sectorSize ready.mono
  have hroom : P₀ < chainSectors s₀ cl' * s₀.sectorSize :=
    (Nat.div_lt_iff_lt_mul ready.file.drive.sync.vol.sectorSize_pos).mp hin
  have hfits : s₀.fileSize ≤ chainSectors s₀ cl' * s₀.sectorSize := by
    have hroom' := i.room
    rw [← hss] at hroom'
    rw [hsize, hsec]
    omega
  have w : WriteInv s₀ (s₀.transfer P₀) cl' P₀ new f.byte := by
    refine ⟨Fixed.refl _, ready.file, hroom.le, hfits, rfl, fun j hj => ?_, fun j _ hj => ?_⟩
    · have hjs : j < s.fileSize := by omega
      rw [hbyte, if_neg (by omega), if_pos (by rw [← h.size]; exact hjs)]
      exact hcap j hjs
    · exact hcap j (by rw [← hsize]; exact hj)
  have g : Going s₀ (s₀.transfer P₀) cl' P₀ True new f.byte :=
    ⟨w, transfer_stands hat hin, fun _ => hroom⟩
  obtain ⟨K, hK⟩ : ∃ K, K = if s.location % s₀.sectorSize = 0 →
      address % 2 ^ 32 &&& s₀.layout.alignmentMask = 0 then (s.location + n) / s₀.sectorSize
      else 0 := ⟨_, rfl⟩
  have hstages := write_stages (K := K) address hn hlim hloc (by rw [hP, hsize])
    (fun j hlo hj => by
      rw [hbyte, if_neg (by omega), if_neg]
      rw [← h.size]
      omega)
    (fun o ho => by
      rw [hbyte, if_pos ⟨by omega, by omega⟩, Nat.add_sub_cancel_left])
    rfl rfl rfl g (fun hal => by rw [hK, if_pos hal]) (fun hle h0 => by
      rw [hK]
      split
      · next hal =>
        rw [hss] at h0 ⊢
        have hmask := hal (by rw [hss]; exact h0)
        rw [hfix.layout] at hmask
        have hah := ready.ahead _ _ (hclear hmask (by rw [← hsize]; exact hle) h0)
        intro k' hlo hhi hlt
        rw [hfix.fileSector]
        exact hah k' hlo hhi (by rw [← hsec]; exact hlt)
      · exact fun k' _ hhi => absurd hhi (Nat.not_lt_zero k'))
  rw [hloc]
  simp only at hstages
  generalize (((Transfer.writeZeros (s.location - P₀) (s.location - P₀)
    (s₀.transfer P₀)).writeHead n buffer).writeWhole n address buffer).writeTail n buffer = y
    at hstages ⊢
  rcases hstages with hfull | ⟨cl₂, hw, hplace, hcount, hzeros⟩
  · exact Or.inl (writeFinish_full hfull _)
  right
  have hfixy := hw.fixed
  have hend : (P₀ + (y.zeros + y.count)) % 2 ^ 32 = s.location + n := by
    rw [hcount, hzeros, Nat.mod_eq_of_lt (by omega)]
    omega
  have hmove : (y.s.location + y.count) % 2 ^ 32 = s.location + n := by
    rw [hcount, hfixy.location, hloc, Nat.mod_eq_of_lt hlim]
  have hys : y.s.fileSize = s.fileSize := hfixy.fileSize.trans hsize
  obtain ⟨s₁, hs₁⟩ : ∃ s₁, s₁ = { y.s with
      savedPosition := s.location + n
      fileSize := if s.location + n > s.fileSize then s.location + n else s.fileSize
      location := s.location + n } := ⟨_, rfl⟩
  have hfile₁ : FileInv s₁ cl₂ := by
    rw [hs₁]
    exact hw.file.handle rfl rfl rfl rfl rfl rfl
  obtain ⟨s', hunlock, hsame⟩ := unlock_spec hfile₁
  have hss₁ : s₁.sectorSize = s₀.sectorSize := by rw [hs₁]; exact hfixy.sectorSize
  have hsec₁ : chainSectors s₁ cl₂ = chainSectors s₀ cl₂ := by
    rw [hs₁]
    exact hfixy.chainSectors cl₂
  have hsize₁ : s₁.fileSize = (f.write s.location n buffer).size := by
    rw [hs₁, ByteFile.write]
    simp only [← h.size]
    split_ifs <;> omega
  have hroom₁ : s₁.fileSize ≤ chainSectors s₀ cl₂ * s₀.sectorSize := by
    have h1 := hw.fits
    have h2 := hw.room
    rw [hsize] at h2
    rw [hs₁]
    simp only
    split_ifs <;> omega
  have hbyte₁ : ∀ j < s₁.fileSize, fileByte s₁ cl₂ j = new j := by
    intro j hj
    have hview : fileByte s₁ cl₂ j = fileByte y.s cl₂ j := by rw [hs₁]; rfl
    rw [hview]
    by_cases hlt : j < s.location + n
    · exact hw.below j hlt
    · have hjs : j < s.fileSize := by
        rw [hs₁] at hj
        simp only at hj
        split_ifs at hj <;> omega
      rw [hw.rest j (by omega) (by rw [hsize]; exact hjs), hbyte, if_neg (by omega),
        if_pos (by rw [← h.size]; exact hjs)]
  refine ⟨s', cl₂, ?_, ⟨hsame.file, ?_, ?_, Or.inr ⟨?_, hsame.at ?_⟩⟩, ⟨?_, ?_⟩, ?_, ?_⟩
  · unfold FileState.writeFinish
    simp only [hend, hmove, hys, hw.noError, if_true]
    rw [← hs₁, hunlock, hcount]
  · rw [hsame.fixed.fileSize, hsame.fixed.chainSectors, hsame.fixed.sectorSize, hsec₁, hss₁]
    exact hroom₁
  · rw [hsame.savedPosition, hsame.fixed.fileSize, hs₁]
    simp only
    split_ifs <;> omega
  · rintro rfl
    have hcur := hw.fits
    rw [chainSectors, List.length_nil, Nat.zero_mul, Nat.zero_mul] at hcur
    omega
  · rw [hsame.savedPosition, hsame.fixed.sectorSize, hss₁, hs₁]
    exact hplace.congr rfl rfl rfl rfl
  · rw [hsame.fixed.fileSize, hsize₁]
  · intro j hj
    rw [← hsize₁] at hj
    rw [hsame.byte j (by rw [hsec₁, hss₁]; exact lt_of_lt_of_le hj hroom₁), hnew]
    exact hbyte₁ j hj
  · rw [hsame.fixed.location, hs₁]
  · rw [hsame.savedPosition, hs₁]

/-! ## A seek -/

/-- Skipping clusters of the chain. -/
theorem skipClusters_spec (m prev : ℕ) {i : ℕ} {d : Drive} (hsync : d.InSync) (hworks : d.Works)
    (hchain : FatChain d cl) (hlast : d.vol.lastCluster < eofCluster) (hi : i < cl.length)
    (hle : i + (m + 1) ≤ cl.length) :
    ∃ e d', skipClusters (m + 1) (cl.getD i 0) prev d =
        (e, cl.getD (i + (m + 1)) eofCluster, previousOf cl (i + (m + 1)), d') ∧
      (e = .noError ∨ e = .eof) ∧ d'.InSync ∧ FatFrame d d' ∧ SameTable d d' := by
  induction m generalizing i prev d with
  | zero =>
    have hr := hchain.range _ (getD_mem hi 0)
    obtain ⟨d', hget, hsync', hframe, htable⟩ := mfsGetClusterFromFat_works hsync hworks.reads hr.1
      hr.2
    have hnext := hchain.next i hi
    have hprev : previousOf cl (i + (0 + 1)) = cl.getD i 0 := previousOf_succ cl i
    rw [skipClusters]
    simp only [hget, ne_eq, not_true_eq_false, if_false, skipClusters, hprev, hnext, Nat.zero_add]
    split_ifs with hend hbad
    · exact ⟨_, d', rfl, Or.inr rfl, hsync', hframe, htable⟩
    · have heof := (entryCode_eq_eof hchain hlast hi).not.mp hend
      have hrange := hchain.range _ (getD_mem (show i + 1 < cl.length by omega) eofCluster)
      omega
    · exact ⟨_, d', rfl, Or.inl rfl, hsync', hframe, htable⟩
  | succ m ih =>
    have hr := hchain.range _ (getD_mem hi 0)
    obtain ⟨d', hget, hsync', hframe, htable⟩ := mfsGetClusterFromFat_works hsync hworks.reads hr.1
      hr.2
    have hnext := hchain.next i hi
    have hi' : i + 1 < cl.length := by omega
    have hend : ¬entryCode d (cl.getD i 0) = clusterEof :=
      (entryCode_eq_eof hchain hlast hi).not.mpr (by omega)
    have hrange := hchain.range _ (getD_mem hi' eofCluster)
    rw [skipClusters]
    simp only [hget, ne_eq, not_true_eq_false, if_false, if_neg hend, hnext]
    rw [if_neg (by omega), getD_default hi' eofCluster 0]
    obtain ⟨e, d₂, hrun, he, hsync₂, hframe₂, htable₂⟩ := ih (cl.getD i 0) hsync'
      (hframe.works hworks) (hchain.sameTable htable) (by rw [htable.vol]; exact hlast) hi'
      (by omega)
    rw [show i + 1 + (m + 1) = i + (m + 1 + 1) by omega] at hrun
    exact ⟨e, d₂, hrun, he, hsync₂, hframe.trans hframe₂, htable.trans htable₂⟩

/-- The handle after a seek: it stands at `after`. -/
theorem moveFinish_spec (i : FileInv s cl) (h : Holds s cl f)
    (hroom : s.fileSize ≤ chainSectors s cl * s.sectorSize) {after : ℕ} (hle : after ≤ s.fileSize)
    (cur prev : ℕ) {e : MfsError} {d : Drive} (he : e = .noError ∨ e = .eof) (hsync : d.InSync)
    (hframe : FatFrame s.d d) (htable : SameTable s.d d)
    (hplace : cur = 0 ∧ after = 0 ∨ cl ≠ [] ∧
      cur = cl.getD (after / s.sectorSize / s.layout.sectorsPerCluster) eofCluster ∧
      prev = previousOf cl (after / s.sectorSize / s.layout.sectorsPerCluster)) :
    ∃ s', s.moveFinish after (e, cur, prev, d) = (e, s') ∧ InPlace s' cl ∧ Holds s' cl f ∧
      s'.location = s.location ∧ s'.savedPosition = after := by
  have honly : OnlyFat s { s with d := d } := ⟨rfl, rfl, rfl, rfl, rfl, rfl, rfl, hsync, hframe⟩
  have hfile := i.onlyFat honly htable rfl
  obtain ⟨s₁, hs₁⟩ : ∃ s₁, s₁ = { s with
      d := d, savedPosition := after, previousCluster := prev, currentCluster := cur } := ⟨_, rfl⟩
  have hfile₁ : FileInv s₁ cl := by
    rw [hs₁]
    exact hfile.handle rfl rfl rfl rfl rfl rfl
  have hfix : Fixed s s₁ := by
    rw [hs₁]
    exact ⟨rfl, hframe.vol, rfl, rfl⟩
  obtain ⟨s', hunlock, hsame⟩ := unlock_spec hfile₁
  have hfix' : Fixed s s' := ⟨hsame.fixed.layout.trans hfix.layout, hsame.fixed.vol.trans hfix.vol,
    hsame.fixed.location.trans hfix.location, hsame.fixed.fileSize.trans hfix.fileSize⟩
  have hsaved : s'.savedPosition = after := by rw [hsame.savedPosition, hs₁]
  refine ⟨s', ?_, ⟨hsame.file, ?_, ?_, ?_⟩, ⟨?_, ?_⟩, hfix'.location, hsaved⟩
  · unfold FileState.moveFinish
    simp only [if_pos he]
    rw [← hs₁, hunlock]
  · rw [hfix'.fileSize, hfix'.chainSectors, hfix'.sectorSize]
    exact hroom
  · rw [hsaved, hfix'.fileSize]
    exact hle
  · rw [hsaved, hfix'.sectorSize, hsame.currentCluster, hs₁]
    rcases hplace with hzero | ⟨hne, hcur, hprev⟩
    · exact Or.inl hzero
    · refine Or.inr ⟨hne, ⟨?_, ?_, ?_⟩⟩
      · rw [hfix'.chainSectors]
        exact Nat.div_le_of_le_mul (by
          rw [Nat.mul_comm]
          exact hle.trans hroom)
      · rw [hsame.currentCluster, hs₁, hfix'.layout]
        exact hcur
      · rw [hsame.previousCluster, hs₁, hfix'.layout]
        exact hprev
  · rw [hfix'.fileSize, h.size]
  · intro j hj
    have hjs : j < chainSectors s cl * s.sectorSize := by
      rw [← h.size] at hj
      exact lt_of_lt_of_le hj hroom
    rw [hsame.byte j (by rw [hfix.chainSectors, hfix.sectorSize]; exact hjs)]
    have hbyte := fileByte_onlyFat i honly [] hjs
    rw [List.append_nil] at hbyte
    rw [← h.byte j hj, ← hbyte, hs₁]
    rfl

/-- A seek leaves the file alone, and the handle stands at the position or at the end of the
file. -/
theorem seek_refines (i : InPlace s cl) (h : Holds s cl f) :
    ∃ e s', s.mfsMoveFilePointer = (e, s') ∧ (e = .noError ∨ e = .eof) ∧ InPlace s' cl ∧
      Holds s' cl f ∧ s'.location = s.location ∧ s'.savedPosition = min s.location s.fileSize := by
  have hfile := i.file
  have g := hfile.drive.geometry
  have hsp := hfile.drive.sync.vol.sectorSize_pos
  have hcs : 0 < s.clusterSize := Nat.mul_pos g.spc_pos hsp
  have hdiv : ∀ j, j / s.sectorSize / s.layout.sectorsPerCluster = j / s.clusterSize := by
    intro j
    rw [Nat.div_div_eq_div_mul, FileState.clusterSize, Nat.mul_comm]
  have hroom : s.fileSize ≤ cl.length * s.clusterSize := by
    have hr := i.room
    rwa [chainSectors, Nat.mul_assoc] at hr
  have hfirst : s.firstCluster = cl.getD 0 0 := hfile.first
  obtain ⟨after, hafter⟩ : ∃ after, min s.location s.fileSize = after := ⟨_, rfl⟩
  have hle : after ≤ s.fileSize := by omega
  obtain ⟨error, herror⟩ : ∃ error, (if s.location > s.fileSize then MfsError.eof else .noError) =
    error := ⟨_, rfl⟩
  have he : error = .noError ∨ error = .eof := by
    rw [← herror]
    split_ifs
    · exact Or.inr rfl
    · exact Or.inl rfl
  -- the handle with the first cluster
  obtain ⟨t, ht⟩ : ∃ t, (if s.currentCluster = 0 then
    { s with currentCluster := s.firstCluster, previousCluster := 0 } else s) = t := ⟨_, rfl⟩
  have htd : t.d = s.d ∧ t.layout = s.layout ∧ t.dataSectorNumber = s.dataSectorNumber ∧
      t.dataSectorDirty = s.dataSectorDirty ∧ t.dataSector = s.dataSector ∧
      t.firstCluster = s.firstCluster ∧ t.fileSize = s.fileSize ∧ t.location = s.location := by
    rw [← ht]
    split_ifs <;> simp
  obtain ⟨hd, hl, hnum, hdirty, hbytes, hfst, hsize, hlocn⟩ := htd
  have hfile' : FileInv t cl := hfile.handle hd hl hnum hdirty hbytes hfst
  have hss : t.sectorSize = s.sectorSize := by rw [FileState.sectorSize, hd]
  have hts : t.clusterSize = s.clusterSize := by rw [FileState.clusterSize, hl, hss]; rfl
  have hholds : Holds t cl f := by
    refine ⟨hsize.trans h.size, fun j hj => ?_⟩
    rw [← h.byte j hj, fileByte, fileByte, hss, fileSector_congr hl, FileState.view, FileState.view,
      hnum, hbytes, hd]
  have hroom' : t.fileSize ≤ chainSectors t cl * t.sectorSize := by
    rw [hsize, chainSectors, hl, hss]
    exact i.room
  have hle' : after ≤ t.fileSize := by rw [hsize]; exact hle
  have hfin := fun cur prev (e : MfsError) (d : Drive) he hsync hframe htable hplace =>
    moveFinish_spec (e := e) (d := d) hfile' hholds hroom' hle' cur prev he hsync hframe htable
      hplace
  rw [hss, hl, hdiv, hd, hlocn] at hfin
  have hstay := fun cur prev e he hplace => hfin cur prev e _ he hfile.drive.sync (FatFrame.refl _)
      (SameTable.refl _) hplace
  unfold FileState.mfsMoveFilePointer
  simp only [hafter, herror, ht, hd, hfst, hts]
  by_cases h0 : after = 0
  · rw [if_pos h0]
    obtain ⟨s', hrun, hres⟩ := hstay s.firstCluster 0 _ he (by
      cases cl with
      | nil => exact Or.inl ⟨hfirst, h0⟩
      | cons c l =>
        refine Or.inr ⟨by simp, ?_, ?_⟩
        · rw [h0, Nat.zero_div, hfirst]
          rfl
        · rw [h0, Nat.zero_div, previousOf, if_pos rfl])
    exact ⟨_, s', hrun, he, hres⟩
  rw [if_neg h0]
  have hlen : 0 < cl.length := by
    by_contra hno
    rw [show cl.length = 0 by omega, Nat.zero_mul] at hroom
    omega
  have hne : cl ≠ [] := List.ne_nil_of_length_pos hlen
  obtain ⟨before, hbefore⟩ : ∃ before, (if s.currentCluster = 0 then 0 else
    s.savedPosition / s.clusterSize * s.clusterSize) = before := ⟨_, rfl⟩
  -- the handle stands at the cluster `b`
  obtain ⟨b, hb, hcur, hprev, hble⟩ : ∃ b, before = b * s.clusterSize ∧
      t.currentCluster = cl.getD b eofCluster ∧ t.previousCluster = previousOf cl b ∧
      b ≤ cl.length := by
    rcases i.place with ⟨hc0, -⟩ | ⟨-, hat⟩
    · refine ⟨0, ?_, ?_, ?_, Nat.zero_le _⟩
      · rw [← hbefore, if_pos hc0, Nat.zero_mul]
      · rw [← ht, if_pos hc0]
        simp only [hfirst]
        exact getD_default hlen _ _
      · rw [← ht, if_pos hc0, previousOf, if_pos rfl]
    · have hc0 := hat.current_ne hfile
      refine ⟨s.savedPosition / s.clusterSize, ?_, ?_, ?_, ?_⟩
      · rw [← hbefore, if_neg hc0]
      · rw [← ht, if_neg hc0, hat.current, hdiv]
      · rw [← ht, if_neg hc0, hat.previous, hdiv]
      · exact Nat.div_le_of_le_mul (by
          rw [Nat.mul_comm]
          exact i.le.trans hroom)
  rw [hbefore]
  by_cases hsame : after = before
  · rw [if_pos hsame]
    obtain ⟨s', hrun, hres⟩ := hstay t.currentCluster t.previousCluster _ he (by
      refine Or.inr ⟨hne, ?_, ?_⟩
      · rw [hsame, hb, Nat.mul_div_cancel _ hcs, hcur]
      · rw [hsame, hb, Nat.mul_div_cancel _ hcs, hprev])
    exact ⟨_, s', hrun, he, hres⟩
  rw [if_neg hsame]
  -- the clusters to skip start at `b'`
  obtain ⟨b', hb', hcur', hprev', hlt'⟩ : ∃ b', (if after < before then 0 else before) =
      b' * s.clusterSize ∧
      (if after < before then s.firstCluster else t.currentCluster) = cl.getD b' 0 ∧
      (if after < before then 0 else t.previousCluster) = previousOf cl b' ∧
      b' < cl.length ∧ b' * s.clusterSize ≤ after := by
    by_cases hback : after < before
    · rw [if_pos hback, if_pos hback, if_pos hback]
      exact ⟨0, by omega, hfirst, rfl, hlen, by omega⟩
    · rw [if_neg hback, if_neg hback, if_neg hback]
      have hblt : b < cl.length := by
        rcases Nat.lt_or_ge b cl.length with hlt | hge
        · exact hlt
        · have hmul := Nat.mul_le_mul_right s.clusterSize hge
          omega
      exact ⟨b, hb, hcur.trans (getD_default hblt _ _), hprev, hblt, by omega⟩
  rw [hb', hcur', hprev']
  obtain ⟨hblt, hba⟩ := hlt'
  have hrange := hfile.chain.range _ (getD_mem hblt 0)
  have hlast := g.last_lt
  have hskip : (after - b' * s.clusterSize) / s.clusterSize = after / s.clusterSize - b' := by
    rw [Nat.mul_comm, Nat.sub_mul_div]
  have hbdiv : b' ≤ after / s.clusterSize := (Nat.le_div_iff_mul_le hcs).mpr hba
  have hadiv : after / s.clusterSize ≤ cl.length := Nat.div_le_of_le_mul (by
    rw [Nat.mul_comm]
    exact hle.trans hroom)
  rw [if_pos (by unfold clusterMinGood at hrange; omega), hskip]
  rcases Nat.eq_or_lt_of_le hbdiv with heq | hgt
  · rw [if_pos (by omega), ← heq, Nat.sub_self, skipClusters]
    obtain ⟨s', hrun, hres⟩ := hstay (cl.getD b' 0) (previousOf cl b') _ he (by
      rw [← heq]
      exact Or.inr ⟨hne, getD_default hblt _ _, rfl⟩)
    exact ⟨_, s', hrun, he, hres⟩
  · obtain ⟨m, hm⟩ : ∃ m, after / s.clusterSize - b' = m + 1 :=
      ⟨after / s.clusterSize - b' - 1, by omega⟩
    obtain ⟨e, d', hrun, he', hsync, hframe, htable⟩ := skipClusters_spec m (previousOf cl b')
      hfile.drive.sync hfile.drive.works hfile.chain hlast hblt (by omega)
    have hsum : b' + (m + 1) = after / s.clusterSize := by omega
    rw [hsum] at hrun
    rw [hm, if_neg (by omega), hrun]
    obtain ⟨s', hrun', hres⟩ := hfin _ _ _ _ he' hsync hframe htable (Or.inr ⟨hne, rfl, rfl⟩)
    exact ⟨_, s', hrun', he', hres⟩

end Mqx.Mfs
