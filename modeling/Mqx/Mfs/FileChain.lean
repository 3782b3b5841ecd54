import Mqx.Mfs.DataSector
import Mathlib.Data.List.GetD

/-!
# The clusters of a file

The chain of an open file as a list of clusters, and the way of the file functions along
it. A position in the file is given by the index of its sector; the bytes of a file are
those of its sectors, in the order of the chain.
-/

namespace Mqx.Mfs

/-- The clusters `cl` are linked in the table. -/
structure FatChain (d : Drive) (cl : List ℕ) : Prop where
  nodup : cl.Nodup
  range : ∀ c ∈ cl, clusterMinGood ≤ c ∧ c ≤ d.vol.lastCluster
  next : ∀ i < cl.length, (entryCode d (cl.getD i 0)).toNat = cl.getD (i + 1) eofCluster
  linkable : ∀ c ∈ cl, Linkable d c

variable {s s' : FileState} {d d' : Drive} {cl : List ℕ} {i k : ℕ}

theorem getD_mem (h : i < cl.length) (e : ℕ) : cl.getD i e ∈ cl := by
  rw [List.getD_eq_getElem cl e h]
  exact List.getElem_mem h

theorem getD_inj (hnd : cl.Nodup) {j e : ℕ} (hi : i < cl.length) (hj : j < cl.length)
    (h : cl.getD i e = cl.getD j e) : i = j := by
  rw [List.getD_eq_getElem cl e hi, List.getD_eq_getElem cl e hj] at h
  exact (List.Nodup.getElem_inj_iff hnd).mp h

namespace FatChain

variable (h : FatChain d cl)

include h

theorem sameTable (ht : SameTable d d') : FatChain d' cl := by
  refine ⟨h.nodup, ?_, ?_, ?_⟩
  · rw [ht.vol]
    exact h.range
  · intro i hi
    rw [ht.entryCode (h.range _ (getD_mem hi 0)).2]
    exact h.next i hi
  · intro c hc
    exact (ht.linkable (h.range c hc).2).mpr (h.linkable c hc)

/-- Members of the chain are not free. -/
theorem not_unused {c : ℕ} (hc : c ∈ cl) : entryCode d c ≠ clusterUnused := by
  intro hfree
  obtain ⟨i, hi, rfl⟩ := List.getElem_of_mem hc
  have hnext := h.next i hi
  rw [List.getD_eq_getElem cl 0 hi, hfree] at hnext
  by_cases hlt : i + 1 < cl.length
  · have hr := (h.range _ (getD_mem hlt eofCluster)).1
    rw [← hnext] at hr
    exact absurd hr (by decide)
  · rw [List.getD_eq_default cl _ (not_lt.mp hlt)] at hnext
    exact absurd hnext (by decide)

end FatChain

/-! ## Sectors of a file -/

/-- Sector `k` of the file. -/
def fileSector (s : FileState) (cl : List ℕ) (k : ℕ) : ℕ :=
  s.clusterToSector (cl.getD (k / s.layout.sectorsPerCluster) 0) +
    k % s.layout.sectorsPerCluster

/-- Byte `i` of the file. -/
def fileByte (s : FileState) (cl : List ℕ) (i : ℕ) : Byte :=
  s.view (fileSector s cl (i / s.sectorSize)) (i % s.sectorSize)

/-- The number of sectors of the clusters. -/
def chainSectors (s : FileState) (cl : List ℕ) : ℕ := cl.length * s.layout.sectorsPerCluster

theorem cluster_index_lt (h : k < chainSectors s cl) :
    k / s.layout.sectorsPerCluster < cl.length :=
  Nat.div_lt_of_lt_mul (by rw [Nat.mul_comm]; exact h)

/-- Cluster numbers and indices determine sectors. -/
theorem clusterToSector_inj {c c' r r' : ℕ} (hc : clusterMinGood ≤ c)
    (hc' : clusterMinGood ≤ c') (hr : r < s.layout.sectorsPerCluster)
    (hr' : r' < s.layout.sectorsPerCluster)
    (h : s.clusterToSector c + r = s.clusterToSector c' + r') : c = c' ∧ r = r' := by
  unfold FileState.clusterToSector at h
  obtain ⟨spc, hspc⟩ : ∃ spc, s.layout.sectorsPerCluster = spc := ⟨_, rfl⟩
  rw [hspc] at h hr hr'
  have hmul : (c - clusterMinGood) * spc + r = (c' - clusterMinGood) * spc + r' := by omega
  have hdiv := congrArg (· / spc) hmul
  have hmod := congrArg (· % spc) hmul
  have hpos : 0 < spc := by omega
  simp only [Nat.mul_comm _ spc, Nat.mul_add_div hpos, Nat.div_eq_of_lt hr, Nat.div_eq_of_lt hr',
    Nat.mul_add_mod, Nat.mod_eq_of_lt hr, Nat.mod_eq_of_lt hr'] at hdiv hmod
  omega

theorem clusterToSector_data (g : Geometry s) {c r : ℕ} (hc : clusterMinGood ≤ c)
    (hlast : c ≤ s.d.vol.lastCluster) (hr : r < s.layout.sectorsPerCluster) :
    s.DataSector (s.clusterToSector c + r) := by
  have hdev := g.inDevice
  unfold FileState.DataSector FileState.clusterToSector
  have hsucc : (c - clusterMinGood + 1) * s.layout.sectorsPerCluster ≤
      (s.d.vol.lastCluster - 1) * s.layout.sectorsPerCluster := by
    apply Nat.mul_le_mul_right
    unfold clusterMinGood at *
    omega
  rw [Nat.succ_mul] at hsucc
  omega

theorem fileSector_data (g : Geometry s) (h : FatChain s.d cl) (hk : k < chainSectors s cl) :
    s.DataSector (fileSector s cl k) := by
  have hr := h.range _ (getD_mem (cluster_index_lt hk) 0)
  exact clusterToSector_data g hr.1 hr.2 (Nat.mod_lt _ g.spc_pos)

theorem fileSector_inj (g : Geometry s) (h : FatChain s.d cl) {j : ℕ}
    (hk : k < chainSectors s cl) (hj : j < chainSectors s cl)
    (heq : fileSector s cl k = fileSector s cl j) : k = j := by
  have hrk := h.range _ (getD_mem (cluster_index_lt hk) 0)
  have hrj := h.range _ (getD_mem (cluster_index_lt hj) 0)
  obtain ⟨hc, hm⟩ := clusterToSector_inj hrk.1 hrj.1 (Nat.mod_lt _ g.spc_pos)
    (Nat.mod_lt _ g.spc_pos) heq
  have hdiv := getD_inj h.nodup (cluster_index_lt hk) (cluster_index_lt hj) hc
  rw [← Nat.div_add_mod k s.layout.sectorsPerCluster,
    ← Nat.div_add_mod j s.layout.sectorsPerCluster, hdiv, hm]

/-- Sectors of the old clusters stay where they are when the chain grows. -/
theorem fileSector_append (s : FileState) {cl : List ℕ} (ext : List ℕ) {k : ℕ}
    (hk : k < chainSectors s cl) : fileSector s (cl ++ ext) k = fileSector s cl k := by
  rw [fileSector, fileSector, List.getD_append _ _ _ _ (cluster_index_lt hk)]

theorem fileSector_congr (hl : s'.layout = s.layout) (cl : List ℕ) (k : ℕ) :
    fileSector s' cl k = fileSector s cl k := by
  rw [fileSector, fileSector, FileState.clusterToSector, FileState.clusterToSector, hl]

/-! ## The drive and the chain -/

/-- The file is stored on the drive, and the data sector holds nothing of a free cluster. -/
structure FileInv (s : FileState) (cl : List ℕ) : Prop where
  drive : DriveInv s
  chain : FatChain s.d cl
  first : s.firstCluster = cl.getD 0 0
  apart : ∀ c, clusterMinGood ≤ c → c ≤ s.d.vol.lastCluster → entryCode s.d c = clusterUnused →
    ∀ r < s.layout.sectorsPerCluster, s.dataSectorNumber ≠ s.clusterToSector c + r

/-- The part of it that walking along the file needs. -/
structure Linked (s : FileState) (cl : List ℕ) : Prop where
  sync : s.d.InSync
  works : s.d.Works
  geometry : Geometry s
  chain : FatChain s.d cl
  first : s.firstCluster = cl.getD 0 0

theorem FileInv.linked (f : FileInv s cl) : Linked s cl :=
  ⟨f.drive.sync, f.drive.works, f.drive.geometry, f.chain, f.first⟩

/-- The cluster before index `i` of the chain. -/
def previousOf (cl : List ℕ) (i : ℕ) : ℕ := if i = 0 then 0 else cl.getD (i - 1) 0

/-- The handle stands at sector `k`, which may be the one behind the chain. -/
structure At (s : FileState) (cl : List ℕ) (k : ℕ) : Prop where
  le : k ≤ chainSectors s cl
  current : s.currentCluster = cl.getD (k / s.layout.sectorsPerCluster) eofCluster
  previous : s.previousCluster = previousOf cl (k / s.layout.sectorsPerCluster)

theorem At.lt_of_ne (h : At s cl k) (hr : ∀ c ∈ cl, c ≤ s.d.vol.lastCluster)
    (g : Geometry s) : s.currentCluster = eofCluster ↔ k = chainSectors s cl := by
  constructor
  · intro heof
    by_contra hne
    have hlt : k < chainSectors s cl := lt_of_le_of_ne h.le hne
    have hmem := getD_mem (cluster_index_lt hlt) eofCluster
    rw [← h.current, heof] at hmem
    have hle := hr _ hmem
    have hcodes := g.codes
    have hmax : (clusterMax s.d.vol.fatType).toNat ≤ eofCluster := by
      cases s.d.vol.fatType <;> decide
    omega
  · intro heq
    rw [h.current, heq, chainSectors, Nat.mul_div_cancel _ g.spc_pos,
      List.getD_eq_default _ _ (le_refl _)]

/-! ## Steps that leave the data sectors alone -/

/-- Only the table's part of the drive and the handle differ. -/
structure OnlyFat (s s' : FileState) : Prop where
  layout : s'.layout = s.layout
  number : s'.dataSectorNumber = s.dataSectorNumber
  dirty : s'.dataSectorDirty = s.dataSectorDirty
  bytes : s'.dataSector = s.dataSector
  location : s'.location = s.location
  savedPosition : s'.savedPosition = s.savedPosition
  fileSize : s'.fileSize = s.fileSize
  sync : s'.d.InSync
  frame : FatFrame s.d s'.d

theorem OnlyFat.trans {s₁ s₂ : FileState} (h : OnlyFat s s₁) (h' : OnlyFat s₁ s₂) :
    OnlyFat s s₂ :=
  ⟨h'.layout.trans h.layout, h'.number.trans h.number, h'.dirty.trans h.dirty,
    h'.bytes.trans h.bytes, h'.location.trans h.location,
    h'.savedPosition.trans h.savedPosition, h'.fileSize.trans h.fileSize, h'.sync,
    h.frame.trans h'.frame⟩

namespace OnlyFat

variable (h : OnlyFat s s')

include h

theorem sectorSize : s'.sectorSize = s.sectorSize := by
  rw [FileState.sectorSize, FileState.sectorSize, h.frame.vol]

theorem clusterSize : s'.clusterSize = s.clusterSize := by
  rw [FileState.clusterSize, FileState.clusterSize, h.layout, h.sectorSize]

theorem clusterToSector (c : ℕ) : s'.clusterToSector c = s.clusterToSector c := by
  rw [FileState.clusterToSector, FileState.clusterToSector, h.layout]

theorem geometry (g : Geometry s) : Geometry s' := by
  constructor
  · rw [h.layout]
    exact g.spc_pos
  · rw [h.frame.vol, h.layout]
    exact g.table
  · rw [h.frame.vol, h.layout]
    exact g.inDevice
  · rw [h.frame.vol]
    exact g.mega_lt
  · rw [h.frame.vol]
    exact g.codes

theorem view (g : Geometry s) {n o : ℕ} (hn : s.layout.dataStartSector ≤ n)
    (ho : o < s.sectorSize) : s'.view n o = s.view n o := by
  unfold FileState.view
  rw [h.number, h.bytes, h.frame.device n (g.table.trans hn) o ho]

theorem driveInv (i : DriveInv s) : DriveInv s' := by
  have hvol := h.frame.vol
  refine ⟨h.sync, h.frame.works i.works, h.geometry i.geometry, ?_, ?_, ?_⟩
  · rw [h.number, hvol, h.layout]
    exact i.place
  · rw [h.dirty, h.number]
    intro hd
    have hdata := i.dirty hd
    rw [FileState.DataSector, h.layout, hvol]
    exact hdata
  · rw [h.dirty, h.number, hvol, h.bytes, h.sectorSize]
    intro hc hmega o ho
    rw [h.frame.device _ (i.geometry.table.trans (i.place hmega)) o ho]
    exact i.clean hc hmega o ho

theorem fileByte (g : Geometry s) (hchain : FatChain s.d cl) {j : ℕ}
    (hj : j / s.sectorSize < chainSectors s cl) (hpos : 0 < s.sectorSize) :
    Mfs.fileByte s' cl j = Mfs.fileByte s cl j := by
  rw [Mfs.fileByte, Mfs.fileByte, h.sectorSize, fileSector_congr h.layout]
  exact h.view g (fileSector_data g hchain hj).1 (Nat.mod_lt _ hpos)

end OnlyFat

end Mqx.Mfs
