import Mqx.Mfs.FileWrite

/-!
# The stages of a write

The zeros behind the end of the file, the partial sector at the front, the whole sectors, and
what is left for the last one: each stage goes on where the one before it has stopped. The
sectors that are written past the data sector must not be held by it.
-/

namespace Mqx.Mfs

variable {s s' s₀ : FileState} {x y : Transfer} {cl : List ℕ} {k K L P : ℕ} {new old : ℕ → Byte}

/-- The file is written up to `P`, and the transfer is at the sector of `P`, which exists if there
is more to write. -/
structure Going (s₀ : FileState) (x : Transfer) (cl : List ℕ) (P : ℕ) (more : Prop)
    (new old : ℕ → Byte) : Prop where
  inv : WriteInv s₀ x cl P new old
  stands : Stands s₀ x cl (P / s₀.sectorSize)
  room : more → P < chainSectors s₀ cl * s₀.sectorSize

theorem WriteInv.congr (w : WriteInv s₀ x cl P new old) (hs : y.s = x.s)
    (he : y.error = x.error) : WriteInv s₀ y cl P new old := by
  obtain ⟨h1, h2, h3, h4, h5, h6, h7⟩ := w
  rw [← hs] at h1 h2 h6 h7
  exact ⟨h1, h2, h3, h4, he.trans h5, h6, h7⟩

theorem Stands.congr (st : Stands s₀ x cl k) (hs : y.s = x.s)
    (hi : y.sectorIndex = x.sectorIndex) (hn : y.sectorNumber = x.sectorNumber) :
    Stands s₀ y cl k := by
  obtain ⟨h1, h2, h3⟩ := st
  rw [← hs] at h1
  exact ⟨h1, fun hk => hi.trans (h2 hk), fun hk => hn.trans (h3 hk)⟩

theorem Going.congr {more more' : Prop} (g : Going s₀ x cl P more new old) (hs : y.s = x.s)
    (hi : y.sectorIndex = x.sectorIndex) (hn : y.sectorNumber = x.sectorNumber)
    (he : y.error = x.error) (hm : more' → more) : Going s₀ y cl P more' new old :=
  ⟨g.inv.congr hs he, g.stands.congr hs hi hn, fun h => g.room (hm h)⟩

section

variable (f : FileInv s cl) (h : Fixed s₀ s)

include f h

theorem FileInv.sectorSize_pos : 0 < s₀.sectorSize := by
  rw [← h.sectorSize]
  exact f.drive.sync.vol.sectorSize_pos

theorem FileInv.spc_pos : 0 < s₀.layout.sectorsPerCluster := by
  rw [← h.layout]
  exact f.drive.geometry.spc_pos

theorem FileInv.dataSector (hk : k < chainSectors s₀ cl) : s.DataSector (fileSector s₀ cl k) := by
  rw [← h.fileSector]
  rw [← h.chainSectors] at hk
  exact fileSector_data f.drive.geometry f.chain hk

theorem FileInv.sector_inj {j : ℕ} (hk : k < chainSectors s₀ cl) (hj : j < chainSectors s₀ cl)
    (heq : fileSector s₀ cl k = fileSector s₀ cl j) : k = j := by
  rw [← h.fileSector, ← h.fileSector] at heq
  rw [← h.chainSectors] at hk hj
  exact fileSector_inj f.drive.geometry f.chain hk hj heq

/-- The data sector is the one before. -/
theorem FileInv.ahead (hk : k < chainSectors s₀ cl)
    (hnum : s.dataSectorNumber = fileSector s₀ cl k) : Ahead s₀ s cl (k + 1) K := by
  intro k' hlo _ hlt heq
  rw [hnum] at heq
  have := f.sector_inj h hlt hk heq
  omega

end

/-- Bytes go into the current sector. -/
theorem Going.fill (g : Going s₀ x cl P True new old) (hwRead : Bool) (size : ℕ) (src : ℕ → Byte)
    (hsize : P % s₀.sectorSize + size ≤ s₀.sectorSize) (hsrc : ∀ o < size, src o = new (P + o))
    (hkeep : hwRead = true ∨ P % s₀.sectorSize = 0 ∧
      (size = s₀.sectorSize ∨ s₀.fileSize ≤ P + size)) :
    ∃ s', x.fill hwRead (P % s₀.sectorSize) size src = { x with s := s', error := .noError } ∧
      WriteInv s₀ { x with s := s', error := .noError } cl (P + size) new old ∧
      Stands s₀ { x with s := s', error := .noError } cl (P / s₀.sectorSize) ∧
      s'.dataSectorNumber = fileSector s₀ cl (P / s₀.sectorSize) := by
  have hP := g.room trivial
  have hk := sector_lt hP
  have hnum := g.stands.number hk
  obtain ⟨s₁, s', hload, hstore, st⟩ := store_spec g.inv.file.drive
    (g.inv.file.dataSector g.inv.fixed hk) hwRead (P % s₀.sectorSize) size src
  refine ⟨s', ?_, g.inv.stored hP hsize hsrc hkeep st rfl rfl, ?_, st.number⟩
  · simp only [Transfer.fill, hnum, hload, hstore, ne_eq, not_true_eq_false, if_false]
  · exact ⟨g.stands.at_.congr st.only.layout rfl st.only.currentCluster st.only.previousCluster,
      g.stands.index, g.stands.number⟩

/-- The sector is full, and the transfer goes to the next one. -/
theorem WriteInv.step {Q : ℕ} (w : WriteInv s₀ x cl Q new old) (a : At x.s cl k)
    (hidx : x.sectorIndex = k % s₀.layout.sectorsPerCluster) (hk : k < chainSectors s₀ cl)
    (hQ : Q = (k + 1) * s₀.sectorSize) (more : Bool) :
    (x.advance more).s.full = true ∨ ∃ cl', Going s₀ (x.advance more) cl' Q (more = true) new old ∧
      Grown s₀ x cl (x.advance more) cl' := by
  rcases w.advance a hk hidx more with hfull | ⟨cl', w', st, hgrown, hroom⟩
  · exact Or.inl hfull
  · have hpos := w.file.sectorSize_pos w.fixed
    have hdiv : Q / s₀.sectorSize = k + 1 := by rw [hQ, Nat.mul_div_cancel _ hpos]
    refine Or.inr ⟨cl', ⟨w', by rwa [hdiv], fun hm => ?_⟩, hgrown⟩
    rw [hQ]
    exact Nat.mul_lt_mul_of_pos_right (hroom hm) hpos

/-- Where bytes in the sector of `P` end. -/
theorem end_of_sector {ss size : ℕ} (hpos : 0 < ss) (hsize : P % ss + size ≤ ss) :
    (P % ss + size = ss ∧ P + size = (P / ss + 1) * ss ∧ (P + size) % ss = 0) ∨
    (P % ss + size < ss ∧ (P + size) / ss = P / ss ∧ (P + size) % ss = P % ss + size) := by
  have hsplit := sector_start_le P ss
  rcases Nat.lt_or_ge (P % ss + size) ss with hlt | hge
  · right
    have hsum : P + size = ss * (P / ss) + (P % ss + size) := by
      rw [Nat.mul_comm]
      omega
    refine ⟨hlt, ?_, ?_⟩
    · rw [hsum, Nat.mul_add_div hpos, Nat.div_eq_of_lt hlt, Nat.add_zero]
    · rw [hsum, Nat.mul_add_mod, Nat.mod_eq_of_lt hlt]
  · left
    have hsum : P + size = (P / ss + 1) * ss := by
      rw [Nat.add_mul, Nat.one_mul]
      omega
    refine ⟨by omega, hsum, ?_⟩
    rw [hsum, Nat.mul_mod_left]

/-! ## The zeros -/

/-- The loop over the gap; `P₀` is the end of the file and `numZeros` the length of the gap. -/
theorem writeZeros_spec {P₀ : ℕ} (numZeros : ℕ) (hend : s₀.fileSize ≤ P₀)
    (hnew : ∀ j, P₀ ≤ j → j < P₀ + numZeros → new j = 0) (n : ℕ) (hle : x.zeros ≤ numZeros)
    (hn : numZeros - x.zeros ≤ n) (hoff : x.sectorOffset = (P₀ + x.zeros) % s₀.sectorSize)
    (g : Going s₀ x cl (P₀ + x.zeros) True new old)
    (hahead : 0 < x.zeros → (P₀ + x.zeros) % s₀.sectorSize = 0 →
      Ahead s₀ x.s cl ((P₀ + x.zeros) / s₀.sectorSize) K) :
    (Transfer.writeZeros numZeros n x).s.full = true ∨
    ∃ y cl', Transfer.writeZeros numZeros n x = y ∧ Going s₀ y cl' (P₀ + numZeros) True new old ∧
      y.zeros = numZeros ∧ y.count = x.count ∧
      y.sectorOffset = (P₀ + numZeros) % s₀.sectorSize ∧
      (0 < numZeros → (P₀ + numZeros) % s₀.sectorSize = 0 →
        Ahead s₀ y.s cl' ((P₀ + numZeros) / s₀.sectorSize) K) := by
  induction n generalizing x cl with
  | zero =>
    have heq : x.zeros = numZeros := by omega
    rw [heq] at hoff g hahead
    exact Or.inr ⟨x, cl, rfl, g, heq, rfl, hoff, hahead⟩
  | succ n ih =>
    unfold Transfer.writeZeros
    by_cases hlt : x.zeros < numZeros
    · rw [if_pos hlt]
      have hss : x.s.sectorSize = s₀.sectorSize := g.inv.fixed.sectorSize
      have hpos := g.inv.file.sectorSize_pos g.inv.fixed
      have hmod := Nat.mod_lt (P₀ + x.zeros) hpos
      obtain ⟨size, hsize⟩ : ∃ size, min (numZeros - x.zeros) (x.s.sectorSize - x.sectorOffset) =
        size := ⟨_, rfl⟩
      have hbound : 0 < size ∧ (P₀ + x.zeros) % s₀.sectorSize + size ≤ s₀.sectorSize ∧
          x.zeros + size ≤ numZeros := by
        rw [hss, hoff] at hsize
        omega
      obtain ⟨hs0, hfit, htot⟩ := hbound
      obtain ⟨s', hfill, w, st, hnum⟩ := g.fill (decide ((P₀ + x.zeros) % s₀.sectorSize ≠ 0)) size
        (fun _ => 0) hfit
        (fun o ho => (hnew _ (by omega) (by omega)).symm) (by
          by_cases h0 : (P₀ + x.zeros) % s₀.sectorSize = 0
          · exact Or.inr ⟨h0, Or.inr (by omega)⟩
          · exact Or.inl (by simp [h0]))
      have hk := sector_lt (g.room trivial)
      have hss' : s'.sectorSize = s₀.sectorSize := w.fixed.sectorSize
      simp only [hsize]
      rw [hoff, hfill]
      simp only [ne_eq, not_true_eq_false, if_false, hss']
      rw [Nat.add_assoc] at w
      rcases end_of_sector hpos hfit with ⟨hfull, hQ, hzero⟩ | ⟨hpart, hdiv, hmod'⟩
      · rw [if_pos hfull.ge]
        rw [Nat.add_assoc] at hQ hzero
        rcases (w.congr (y := { x with
            s := s', error := .noError, zeros := x.zeros + size,
            sectorOffset := (P₀ + x.zeros) % s₀.sectorSize + size }) rfl rfl).step
            st.at_ (st.index hk) hk hQ true with hdisk | ⟨cl', g', hgrown⟩
        · exact Or.inl (writeZeros_full _ _ (by exact hdisk))
        · have hz := hgrown.zeros
          have hah := hgrown.ahead _ K (w.file.ahead w.fixed hk hnum)
          have hdiv : (P₀ + (x.zeros + size)) / s₀.sectorSize =
              (P₀ + x.zeros) / s₀.sectorSize + 1 := by
            rw [hQ, Nat.mul_div_cancel _ hpos]
          have hcount := hgrown.count
          generalize Transfer.advance _ true = z at g' hgrown hz hah hcount ⊢
          have hz' : ({ z with sectorOffset := 0 } : Transfer).zeros = x.zeros + size := hz
          have hnext := @ih { z with sectorOffset := 0 } cl' (by rw [hz']; exact htot)
            (by rw [hz']; omega) (by rw [hz']; exact hzero.symm)
            (by rw [hz']; exact g'.congr rfl rfl rfl rfl fun _ => rfl)
            (by rw [hz', hdiv]; exact fun _ _ => hah)
          have hc : z.count = x.count := hcount
          rw [← hc]
          exact hnext
      · rw [if_neg (Nat.not_le.mpr hpart)]
        rw [Nat.add_assoc] at hdiv hmod'
        refine ih (x := { x with
            s := s', error := .noError, zeros := x.zeros + size,
            sectorOffset := (P₀ + x.zeros) % s₀.sectorSize + size }) htot (by simp only; omega)
          hmod'.symm ⟨w.congr rfl rfl, ?_, fun _ => ?_⟩ ?_
        · rw [hdiv]
          exact st.congr rfl rfl rfl
        · have hmul := Nat.mul_le_mul_right s₀.sectorSize hk
          have hsplit := sector_start_le (P₀ + x.zeros) s₀.sectorSize
          rw [Nat.succ_mul] at hmul
          simp only
          omega
        · intro _ hzero
          simp only at hzero
          omega
    · rw [if_neg hlt]
      have heq : x.zeros = numZeros := by omega
      rw [heq] at hoff g hahead
      exact Or.inr ⟨x, cl, rfl, g, heq, rfl, hoff, hahead⟩

/-! ## The partial sector at the front -/

/-- The bytes that fill up the first sector. -/
def headSize (ss L n : ℕ) : ℕ := if L % ss = 0 then 0 else min n (ss - L % ss)

theorem writeHead_spec {n : ℕ} {buffer : ℕ → Byte} (hn : 0 < n)
    (hbuf : ∀ o < n, buffer o = new (L + o)) (hoff : x.sectorOffset = L % s₀.sectorSize)
    (hcount : x.count = 0) (g : Going s₀ x cl L True new old)
    (hahead : L % s₀.sectorSize = 0 → Ahead s₀ x.s cl (L / s₀.sectorSize) K) :
    (x.writeHead n buffer).s.full = true ∨
    ∃ y cl', x.writeHead n buffer = y ∧ Going s₀ y cl' (L + y.count) (y.count < n) new old ∧
      y.count = headSize s₀.sectorSize L n ∧ y.zeros = x.zeros ∧
      (y.count < n → (L + y.count) % s₀.sectorSize = 0 ∧
        Ahead s₀ y.s cl' ((L + y.count) / s₀.sectorSize) K) := by
  have hss : x.s.sectorSize = s₀.sectorSize := g.inv.fixed.sectorSize
  have hpos := g.inv.file.sectorSize_pos g.inv.fixed
  have hmod := Nat.mod_lt L hpos
  unfold Transfer.writeHead headSize
  by_cases h0 : L % s₀.sectorSize = 0
  · rw [if_neg (by rw [hoff, h0]; simp), if_pos h0]
    refine Or.inr ⟨x, cl, rfl, ?_, hcount, rfl, fun _ => ?_⟩
    · rw [hcount, Nat.add_zero]
      exact g.congr rfl rfl rfl rfl fun _ => trivial
    · rw [hcount, Nat.add_zero]
      exact ⟨h0, hahead h0⟩
  rw [if_pos ⟨by rwa [hoff], g.inv.noError⟩, if_neg h0]
  obtain ⟨size, hsize⟩ : ∃ size, min n (s₀.sectorSize - L % s₀.sectorSize) = size := ⟨_, rfl⟩
  have hbound : 0 < size ∧ L % s₀.sectorSize + size ≤ s₀.sectorSize ∧ size ≤ n := by omega
  obtain ⟨hs0, hfit, hle⟩ := hbound
  obtain ⟨s', hfill, w, st, hnum⟩ := g.fill true size buffer hfit
    (fun o ho => hbuf o (by omega)) (Or.inl rfl)
  have hk := sector_lt (g.room trivial)
  have hss' : s'.sectorSize = s₀.sectorSize := w.fixed.sectorSize
  simp only [hss, hoff, hsize, hfill, ne_eq, not_true_eq_false, if_false, hss']
  rcases end_of_sector hpos hfit with ⟨hfull, hQ, hzero⟩ | ⟨hpart, hdiv, hmod'⟩
  · rw [if_pos hfull.ge]
    rcases (w.congr (y := { x with
        s := s', error := .noError, count := size
        sectorOffset := L % s₀.sectorSize }) rfl rfl).step
      st.at_ (st.index hk) hk hQ (decide (size < n)) with hdisk | ⟨cl', g', hgrown⟩
    · exact Or.inl hdisk
    · right
      have hah := hgrown.ahead _ K (w.file.ahead w.fixed hk hnum)
      have hcount' : _ = size := hgrown.count
      have hz := hgrown.zeros
      refine ⟨_, cl', rfl, ?_, hcount', hz, fun _ => ?_⟩
      · rw [hcount']
        exact g'.congr rfl rfl rfl rfl (by simp)
      · rw [hcount', hQ, Nat.mul_mod_left, Nat.mul_div_cancel _ hpos]
        exact ⟨rfl, hah⟩
  · have hend : size = n := by omega
    rw [if_neg (Nat.not_le.mpr hpart)]
    refine Or.inr ⟨_, cl, rfl, ⟨w.congr rfl rfl, ?_, ?_⟩, rfl, rfl, ?_⟩
    · rw [hdiv]
      exact st.congr rfl rfl rfl
    · intro hlt
      exact absurd hlt (by simp only; omega)
    · intro hlt
      exact absurd hlt (by simp only; omega)

/-! ## Whole sectors -/

section Whole

variable {n : ℕ} {buffer : ℕ → Byte}

theorem writeCopied_spec (hbuf : ∀ o < n, buffer o = new (L + o)) (m : ℕ)
    (hle : x.count + m * s₀.sectorSize ≤ n) (hzero : 0 < m → (L + x.count) % s₀.sectorSize = 0)
    (g : Going s₀ x cl (L + x.count) (x.count < n) new old) :
    (Transfer.writeCopied n buffer m x).s.full = true ∨
    ∃ y cl', Transfer.writeCopied n buffer m x = y ∧
      Going s₀ y cl' (L + y.count) (y.count < n) new old ∧
      y.count = x.count + m * s₀.sectorSize ∧ y.zeros = x.zeros := by
  induction m generalizing x cl with
  | zero => exact Or.inr ⟨x, cl, rfl, g, by omega, rfl⟩
  | succ m ih =>
    have hss : x.s.sectorSize = s₀.sectorSize := g.inv.fixed.sectorSize
    have hpos := g.inv.file.sectorSize_pos g.inv.fixed
    have h0 := hzero (by omega)
    rw [Nat.succ_mul] at hle
    have g₁ := g.congr rfl rfl rfl rfl fun _ : True => by omega
    obtain ⟨s', hfill, w, st, -⟩ := g₁.fill false s₀.sectorSize
      (fun o => buffer (x.count + o)) (by omega)
      (fun o ho => by
        rw [hbuf _ (by omega)]
        congr 1
        omega)
      (Or.inr ⟨h0, Or.inl rfl⟩)
    have hk := sector_lt (g₁.room trivial)
    have hQ : L + x.count + s₀.sectorSize =
        ((L + x.count) / s₀.sectorSize + 1) * s₀.sectorSize := by
      have hsplit := sector_start_le (L + x.count) s₀.sectorSize
      rw [Nat.succ_mul]
      omega
    unfold Transfer.writeCopied
    rw [h0] at hfill
    simp only [if_pos g.inv.noError, hss, hfill, ne_eq, not_true_eq_false, if_false]
    rcases (w.congr (y := { x with
        s := s', error := .noError, count := x.count + s₀.sectorSize }) rfl rfl).step
        st.at_ (st.index hk) hk hQ (decide (x.count + s₀.sectorSize < n)) with
      hdisk | ⟨cl', g', hgrown⟩
    · exact Or.inl (writeCopied_full _ _ _ hdisk)
    · have hcount : _ = x.count + s₀.sectorSize := hgrown.count
      have hz : _ = x.zeros := hgrown.zeros
      generalize Transfer.advance _ (decide (x.count + s₀.sectorSize < n)) = z at g' hcount hz ⊢
      have gz : Going s₀ z cl' (L + z.count) (z.count < n) new old := by
        rw [hcount, ← Nat.add_assoc]
        exact g'.congr rfl rfl rfl rfl (by simp)
      rcases ih (by rw [hcount]; omega)
        (fun _ => by rw [hcount, ← Nat.add_assoc, hQ, Nat.mul_mod_left]) gz with
        hdisk | ⟨y, cl'', hy, gy, hcy, hzy⟩
      · exact Or.inl hdisk
      · refine Or.inr ⟨y, cl'', hy, gy, ?_, hzy.trans hz⟩
        rw [hcy, hcount, Nat.succ_mul]
        omega

/-- Sectors of one cluster are next to one another. -/
theorem fileSector_add (s₀ : FileState) (cl : List ℕ) {spc i : ℕ}
    (hspc : s₀.layout.sectorsPerCluster = spc) (hi : k % spc + i < spc) :
    (k + i) / spc = k / spc ∧ (k + i) % spc = k % spc + i ∧
      fileSector s₀ cl (k + i) = fileSector s₀ cl k + i := by
  have hpos : 0 < spc := by omega
  have hk := Nat.div_add_mod k spc
  have hsum : k + i = spc * (k / spc) + (k % spc + i) := by omega
  have hdiv : (k + i) / spc = k / spc := by
    rw [hsum, Nat.mul_add_div hpos, Nat.div_eq_of_lt hi, Nat.add_zero]
  have hmod : (k + i) % spc = k % spc + i := by rw [hsum, Nat.mul_add_mod, Nat.mod_eq_of_lt hi]
  refine ⟨hdiv, hmod, ?_⟩
  rw [fileSector, fileSector, hspc, hdiv, hmod]
  omega

/-- The sectors from `k` on up to the end of its cluster. -/
theorem fileSector_near (cl : List ℕ) {spc cont : ℕ} (hspc : s₀.layout.sectorsPerCluster = spc)
    (hk : k < chainSectors s₀ cl) (hfit : k % spc + cont ≤ spc) : ∀ i < cont,
    k + i < chainSectors s₀ cl ∧ fileSector s₀ cl (k + i) = fileSector s₀ cl k + i ∧
      (k + i) / spc = k / spc := by
  intro i hi
  obtain ⟨hdiv, -, hadd⟩ := fileSector_add s₀ cl (k := k) (i := i) hspc (by omega)
  refine ⟨?_, hadd, hdiv⟩
  rw [chainSectors, hspc, ← Nat.div_lt_iff_lt_mul (by omega), hdiv]
  have hidx := cluster_index_lt hk
  rwa [hspc] at hidx

theorem At.within {j : ℕ} (a : At s cl k) (hj : j / s.layout.sectorsPerCluster =
    k / s.layout.sectorsPerCluster) (hle : j ≤ chainSectors s cl) : At s cl j := by
  refine ⟨hle, ?_, ?_⟩
  · rw [hj]
    exact a.current
  · rw [hj]
    exact a.previous

/-- The sectors from `k` on are written in one transfer. -/
theorem Going.direct (g : Going s₀ x cl P True new old) (h0 : P % s₀.sectorSize = 0) (cont : ℕ)
    (src : ℕ → Byte) (hcont : 0 < cont)
    (hfit : P / s₀.sectorSize % s₀.layout.sectorsPerCluster + cont ≤
      s₀.layout.sectorsPerCluster)
    (hsrc : ∀ o < cont * s₀.sectorSize, src o = new (P + o))
    (hahead : Ahead s₀ x.s cl (P / s₀.sectorSize) (P / s₀.sectorSize + cont)) :
    ∃ d, mfsWriteDeviceSectors x.s.d x.sectorNumber cont src = (.noError, d) ∧
      WriteInv s₀ { x with s := { x.s with d := d }, error := .noError } cl
        (P + cont * s₀.sectorSize) new old ∧
      At { x.s with d := d } cl (P / s₀.sectorSize + (cont - 1)) ∧
      P / s₀.sectorSize + (cont - 1) < chainSectors s₀ cl := by
  have w := g.inv
  have hfix := w.fixed
  have hpos := w.file.sectorSize_pos w.fixed
  have hss : x.s.sectorSize = s₀.sectorSize := hfix.sectorSize
  obtain ⟨ss, hssd⟩ : ∃ ss, s₀.sectorSize = ss := ⟨_, rfl⟩
  obtain ⟨k, hkd⟩ : ∃ k, P / s₀.sectorSize = k := ⟨_, rfl⟩
  have hP := g.room trivial
  have hk := sector_lt hP
  have hPk : P = k * ss := by
    have hsplit := sector_start_le P s₀.sectorSize
    rw [h0, hkd, hssd] at hsplit
    omega
  rw [hkd] at hk hfit hahead ⊢
  rw [hssd] at hsrc hpos ⊢
  obtain ⟨spc, hspc⟩ : ∃ spc, s₀.layout.sectorsPerCluster = spc := ⟨_, rfl⟩
  rw [hspc] at hfit
  -- the sectors are those of one cluster
  have hnear := fileSector_near cl hspc hk hfit
  have hnum := g.stands.number (by rwa [hkd])
  rw [hkd] at hnum
  have hdata := w.file.dataSector w.fixed hk
  have hapart : ¬(fileSector s₀ cl k ≤ x.s.dataSectorNumber ∧
      x.s.dataSectorNumber < fileSector s₀ cl k + cont) := by
    rintro ⟨hlo, hhi⟩
    obtain ⟨i, hi⟩ : ∃ i, x.s.dataSectorNumber = fileSector s₀ cl k + i :=
      ⟨x.s.dataSectorNumber - fileSector s₀ cl k, by omega⟩
    obtain ⟨hlt, hadd, -⟩ := hnear i (by omega)
    exact hahead (k + i) (by omega) (by omega) hlt (by rw [hadd, hi])
  obtain ⟨d, hwrite, honly, hinv, hview⟩ :=
    direct_write_spec w.file.drive hdata.1 hdata.2 src hapart
  rw [hss, hssd] at hview
  have hfixd := hfix.onlyData honly
  have hlast := hnear (cont - 1) (by omega)
  -- a byte of the file is in one of the sectors exactly when it is in the range
  have hbyte : ∀ j < chainSectors s₀ cl * ss, fileByte { x.s with d := d } cl j =
      if P ≤ j ∧ j < P + cont * ss then src (j - P) else fileByte x.s cl j := by
    intro j hj
    have hjs := sector_start_le j ss
    have hjlt : j / ss < chainSectors s₀ cl := sector_lt hj
    have hrange : (P ≤ j ∧ j < P + cont * ss) ↔ k ≤ j / ss ∧ j / ss < k + cont := by
      rw [hPk, ← Nat.add_mul, Nat.le_div_iff_mul_le hpos, Nat.div_lt_iff_lt_mul hpos]
    have hleft : fileByte { x.s with d := d } cl j =
        FileState.view { x.s with d := d } (fileSector s₀ cl (j / ss)) (j % ss) := by
      rw [fileByte, hfixd.sectorSize, hfixd.fileSector, hssd]
    have hright : fileByte x.s cl j = x.s.view (fileSector s₀ cl (j / ss)) (j % ss) := by
      rw [fileByte, hfix.sectorSize, hfix.fileSector, hssd]
    rw [hleft, hview _ _ (Nat.mod_lt _ hpos), hright]
    by_cases hin : k ≤ j / ss ∧ j / ss < k + cont
    · obtain ⟨i, hi⟩ : ∃ i, j / ss = k + i := ⟨j / ss - k, by omega⟩
      obtain ⟨-, hadd, -⟩ := hnear i (by omega)
      rw [if_pos (hrange.mpr hin), hi, hadd, if_pos (by omega)]
      congr 1
      rw [Nat.add_sub_cancel_left, hPk]
      rw [hi, Nat.add_mul] at hjs
      omega
    · rw [if_neg (fun h => hin (hrange.mp h)), if_neg]
      rintro ⟨hlo, hhi⟩
      obtain ⟨i, hi⟩ : ∃ i, fileSector s₀ cl (j / ss) = fileSector s₀ cl k + i :=
        ⟨fileSector s₀ cl (j / ss) - fileSector s₀ cl k, by omega⟩
      obtain ⟨hlt, hadd, -⟩ := hnear i (by omega)
      have := w.file.sector_inj w.fixed hjlt hlt (by rw [hadd, hi])
      omega
  have hroom : P + cont * ss ≤ chainSectors s₀ cl * ss := by
    rw [hPk, ← Nat.add_mul]
    exact Nat.mul_le_mul_right ss (by omega)
  refine ⟨d, by rw [hnum]; exact hwrite,
    ⟨hfixd, ?_, by rw [hssd]; exact hroom, w.room, rfl, ?_, ?_⟩, ?_, hlast.1⟩
  · refine ⟨hinv, w.file.chain.sameTable honly.table, w.file.first, ?_⟩
    intro c hmin hlastc hfree
    simp only at hlastc hfree
    rw [honly.vol] at hlastc
    rw [honly.table.entryCode hlastc] at hfree
    exact w.file.apart c hmin hlastc hfree
  · intro j hj
    rw [hbyte j (by omega)]
    by_cases hin : P ≤ j
    · rw [if_pos ⟨hin, hj⟩, hsrc _ (by omega)]
      congr 1
      omega
    · rw [if_neg (by omega)]
      exact w.below j (by omega)
  · intro j hlo hj
    have hroomj := w.room
    rw [hssd] at hroomj
    rw [hbyte j (by omega), if_neg (by omega)]
    exact w.rest j (by omega) hj
  · have hat := g.stands.at_
    rw [hkd] at hat
    have hspcx : x.s.layout.sectorsPerCluster = spc := by rw [hfix.layout, hspc]
    refine At.congr (hat.within (j := k + (cont - 1)) ?_ ?_) rfl rfl rfl rfl
    · rw [hspcx]
      exact hlast.2.2
    · rw [hfix.chainSectors]
      omega

theorem writeDirect_spec (hbuf : ∀ o < n, buffer o = new (L + o)) (m whole : ℕ) (hm : whole ≤ m)
    (hle : x.count + whole * s₀.sectorSize ≤ n)
    (hzero : 0 < whole → (L + x.count) % s₀.sectorSize = 0)
    (hK : (L + x.count) / s₀.sectorSize + whole ≤ K)
    (hahead : 0 < whole → Ahead s₀ x.s cl ((L + x.count) / s₀.sectorSize) K)
    (g : Going s₀ x cl (L + x.count) (x.count < n) new old) :
    (Transfer.writeDirect n buffer m whole x).s.full = true ∨
    ∃ y cl', Transfer.writeDirect n buffer m whole x = y ∧
      Going s₀ y cl' (L + y.count) (y.count < n) new old ∧
      y.count = x.count + whole * s₀.sectorSize ∧ y.zeros = x.zeros := by
  induction m generalizing x cl whole with
  | zero =>
    have hw : whole = 0 := by omega
    subst hw
    exact Or.inr ⟨x, cl, rfl, g, by omega, rfl⟩
  | succ m ih =>
    unfold Transfer.writeDirect
    by_cases hw : 0 < whole
    · have hss : x.s.sectorSize = s₀.sectorSize := g.inv.fixed.sectorSize
      have hspc : x.s.layout.sectorsPerCluster = s₀.layout.sectorsPerCluster := by
        rw [g.inv.fixed.layout]
      have hpos := g.inv.file.sectorSize_pos g.inv.fixed
      have h0 := hzero hw
      have hmul := Nat.mul_le_mul_right s₀.sectorSize hw
      have g₁ := g.congr rfl rfl rfl rfl fun _ : True => by omega
      have hk := sector_lt (g₁.room trivial)
      have hidx := g₁.stands.index hk
      have hmod := Nat.mod_lt ((L + x.count) / s₀.sectorSize) (g.inv.file.spc_pos g.inv.fixed)
      obtain ⟨cont, hcont⟩ : ∃ cont,
          min (x.s.layout.sectorsPerCluster - x.sectorIndex) whole = cont := ⟨_, rfl⟩
      have hbound : 0 < cont ∧ cont ≤ whole ∧ (L + x.count) / s₀.sectorSize %
          s₀.layout.sectorsPerCluster + cont ≤ s₀.layout.sectorsPerCluster := by
        rw [hspc, hidx] at hcont
        omega
      obtain ⟨hc0, hcw, hfit⟩ := hbound
      have hcs := Nat.mul_le_mul_right s₀.sectorSize hcw
      obtain ⟨d, hwrite, w, hat, hklast⟩ := g₁.direct h0 cont
        (fun o => buffer (x.count + o)) hc0 hfit
        (fun o ho => by
          rw [hbuf _ (by omega)]
          congr 1
          omega)
        (fun k' hlo hhi => hahead hw k' hlo (by omega))
      have hQ : L + x.count + cont * s₀.sectorSize =
          ((L + x.count) / s₀.sectorSize + (cont - 1) + 1) * s₀.sectorSize := by
        have hsplit := sector_start_le (L + x.count) s₀.sectorSize
        rw [show (L + x.count) / s₀.sectorSize + (cont - 1) + 1 =
          (L + x.count) / s₀.sectorSize + cont by omega, Nat.add_mul]
        omega
      have hnext : x.sectorIndex + (cont - 1) = ((L + x.count) / s₀.sectorSize + (cont - 1)) %
          s₀.layout.sectorsPerCluster := by
        rw [(fileSector_add s₀ cl (i := cont - 1) rfl (by omega)).2.1, hidx]
      rw [if_pos ⟨hw, g.inv.noError⟩]
      simp only [hcont, hwrite, ne_eq, not_true_eq_false, if_false, hss]
      rcases (w.congr (y := { x with
          s := { x.s with d := d }, error := .noError, count := x.count + cont * s₀.sectorSize,
          sectorIndex := x.sectorIndex + (cont - 1) }) rfl rfl).step
          hat hnext hklast hQ (decide (x.count + cont * s₀.sectorSize < n)) with
        hdisk | ⟨cl', g', hgrown⟩
      · exact Or.inl (writeDirect_full _ _ _ hdisk _)
      · have hcount : _ = x.count + cont * s₀.sectorSize := hgrown.count
        have hz : _ = x.zeros := hgrown.zeros
        have hah := fun h => hgrown.ahead _ K (hahead h)
        generalize Transfer.advance _ (decide (x.count + cont * s₀.sectorSize < n)) = z
          at g' hcount hz hah ⊢
        have hdiv : (L + z.count) / s₀.sectorSize = (L + x.count) / s₀.sectorSize + cont := by
          rw [hcount, ← Nat.add_assoc, hQ, Nat.mul_div_cancel _ hpos]
          omega
        have gz : Going s₀ z cl' (L + z.count) (z.count < n) new old := by
          rw [hcount, ← Nat.add_assoc]
          exact g'.congr rfl rfl rfl rfl (by simp)
        rcases ih (whole - cont) (by omega)
          (by rw [hcount, Nat.sub_mul]; omega)
          (fun _ => by rw [hcount, ← Nat.add_assoc, hQ, Nat.mul_mod_left])
          (by rw [hdiv]; omega)
          (fun _ k' hlo hhi => hah hw k' (by rw [hdiv] at hlo; omega) hhi) gz with
          hdisk | ⟨y, cl'', hy, gy, hcy, hzy⟩
        · exact Or.inl hdisk
        · refine Or.inr ⟨y, cl'', hy, gy, ?_, hzy.trans hz⟩
          rw [hcy, hcount, Nat.sub_mul]
          omega
    · have hw0 : whole = 0 := by omega
      subst hw0
      rw [if_neg (by simp)]
      exact Or.inr ⟨x, cl, rfl, g, by omega, rfl⟩

end Whole

end Mqx.Mfs
