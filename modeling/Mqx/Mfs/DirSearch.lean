import Mqx.Mfs.Format
import Mqx.Mfs.PrevCluster

/-!
# Entries of a directory

`MFS_Find_directory_entry` without a name to look for: it returns the entry at a place of a
directory, or the next one that is not deleted. The directory buffer only holds a copy of
sectors that nobody writes meanwhile, so a directory is a function that gives its sectors.
Sector and entry counts are powers of two, and the masks of the source are remainders.
-/

namespace Mqx.Mfs

/-- A drive as the reader of a directory sees it: `sector c k` is what
`MFS_Read_directory_sector` returns for sector `k` of cluster `c`, `none` being `NULL`. -/
structure DirDisk where
  entriesPerSector : ℕ
  sectorsPerCluster : ℕ
  rootEntries : ℕ
  rootCluster : ℕ
  sector : ℕ → ℕ → Option (ℕ → Byte)
  entriesPerSector_pos : 0 < entriesPerSector
  sectorsPerCluster_pos : 0 < sectorsPerCluster

/-- `MFS_DEL_FILE`. -/
def delFile : Byte := 0xE5

/-- What a search returns: `NULL` with the error code and the drive, or an entry with its cluster
and index, the cluster before it and the drive. -/
inductive FindResult where
  | missing (error : MfsError) (d : Drive)
  | found (entry : ℕ → Byte) (cluster index prevCluster : ℕ) (d : Drive)

namespace DirDisk

variable (v : DirDisk)

/-- The entries of a cluster. -/
def entriesPerCluster : ℕ := v.entriesPerSector * v.sectorsPerCluster

/-- The 32 bytes of the entry at an index of a cluster. -/
def slot (cluster index : ℕ) : Option (ℕ → Byte) :=
  (v.sector cluster (index / v.entriesPerSector)).map fun b o =>
    b (dirEntrySize * (index % v.entriesPerSector) + o)

/-- Returns the error, the next cluster and index, and the cluster before. -/
def mfsIncrementDirIndex (d : Drive) (cluster index prevCluster : ℕ) :
    MfsError × ℕ × ℕ × ℕ × Drive :=
  if (index + 1) % v.entriesPerSector = 0 then
    if cluster ≠ 0 then
      if (index + 1) / v.entriesPerSector ≥ v.sectorsPerCluster then
        let r := mfsGetClusterFromFat d cluster
        let next := r.2.1.toNat
        (r.1, next, if r.1 = .noError then 0 else index + 1,
          if next ≠ cluster ∧ next ≠ clusterInvalid then cluster else prevCluster, r.2.2)
      else (.noError, cluster, index + 1, prevCluster, d)
    else if index + 1 ≥ v.rootEntries then (.noError, clusterInvalid, 0, prevCluster, d)
    else (.noError, cluster, index + 1, prevCluster, d)
  else (.noError, cluster, index + 1, prevCluster, d)

/-- `MFS_Find_directory_entry` with `NULL` for the name and any attributes, for at most `fuel`
places. The loops over the sectors of a cluster and over the entries of a sector are one
recursion on the index; `read` says that some sector has been read. An entry that was never
used ends the search without setting the error code, which the callers have cleared. -/
def findEntry : ℕ → Bool → ℕ → ℕ → ℕ → Drive → Option FindResult
  | 0, _, _, _, _, _ => none
  | fuel + 1, read, cluster, index, prevCluster, d =>
    if (cluster = 0 ∨ index / v.entriesPerSector < v.sectorsPerCluster) ∧
        cluster ≠ eofCluster then
      match v.slot cluster index with
      | none =>
        let r := v.mfsIncrementDirIndex d cluster index prevCluster
        some (.missing r.1 r.2.2.2.2)
      | some entry =>
        if entry 0 = 0 then some (.missing .noError d)
        else if entry 0 = delFile then findEntry fuel true cluster (index + 1) prevCluster d
        else some (.found entry cluster index prevCluster d)
    else
      let r := v.mfsIncrementDirIndex d cluster index prevCluster
      if r.1 ≠ .noError then some (.missing r.1 r.2.2.2.2)
      else if read = false ∨ r.2.1 = eofCluster ∨ r.2.1 = clusterInvalid then
        some (.missing .noError r.2.2.2.2)
      else findEntry fuel read r.2.1 r.2.2.1 r.2.2.2.1 r.2.2.2.2

variable {v : DirDisk} {c i prev : ℕ} {d : Drive} {read : Bool} {e : ℕ → Byte}

/-- More places do not change the result. -/
theorem findEntry_mono {r : FindResult} {fuel : ℕ} (k : ℕ) : ∀ {read : Bool} {c i prev : ℕ}
    {d : Drive}, v.findEntry fuel read c i prev d = some r →
      v.findEntry (fuel + k) read c i prev d = some r := by
  induction fuel with
  | zero => intro read c i prev d h; cases h
  | succ fuel ih =>
    intro read c i prev d h
    rw [Nat.add_right_comm, findEntry]
    rw [findEntry] at h
    split
    · next hin =>
      rw [if_pos hin] at h
      cases hslot : v.slot c i with
      | none =>
        rw [hslot] at h
        exact h
      | some e =>
        rw [hslot] at h
        simp only at h ⊢
        split
        · next hzero => rwa [if_pos hzero] at h
        · next hzero =>
          rw [if_neg hzero] at h
          split
          · next hdel =>
            rw [if_pos hdel] at h
            exact ih h
          · next hdel => rwa [if_neg hdel] at h
    · next hin =>
      rw [if_neg hin] at h
      simp only at h ⊢
      split
      · next herr => rwa [if_pos herr] at h
      · next herr =>
        rw [if_neg herr] at h
        split
        · next hend => rwa [if_pos hend] at h
        · next hend =>
          rw [if_neg hend] at h
          exact ih h

/-- A place in a directory. -/
structure Place (v : DirDisk) (d : Drive) (c i : ℕ) : Prop where
  cluster : c = 0 ∨ clusterMinGood ≤ c ∧ c ≤ d.vol.lastCluster
  index : c ≠ 0 → i < v.entriesPerCluster

theorem Place.inside (h : v.Place d c i) (hd : d.vol.Ok) :
    (c = 0 ∨ i / v.entriesPerSector < v.sectorsPerCluster) ∧ c ≠ eofCluster := by
  have heof := eofCluster_gt hd
  have hcluster := h.cluster
  constructor
  · by_cases hc : c = 0
    · exact Or.inl hc
    · exact Or.inr (Nat.div_lt_of_lt_mul (h.index hc))
  · omega

theorem findEntry_none (h : v.Place d c i) (hd : d.vol.Ok) (hslot : v.slot c i = none) :
    ∃ err d', v.findEntry 1 read c i prev d = some (.missing err d') := by
  rw [findEntry, if_pos (h.inside hd), hslot]
  exact ⟨_, _, rfl⟩

theorem findEntry_unused (h : v.Place d c i) (hd : d.vol.Ok) (hslot : v.slot c i = some e)
    (hzero : e 0 = 0) : v.findEntry 1 read c i prev d = some (.missing .noError d) := by
  rw [findEntry, if_pos (h.inside hd), hslot]
  exact if_pos hzero

theorem findEntry_here (h : v.Place d c i) (hd : d.vol.Ok) (hslot : v.slot c i = some e)
    (hzero : e 0 ≠ 0) (hdel : e 0 ≠ delFile) :
    v.findEntry 1 read c i prev d = some (.found e c i prev d) := by
  rw [findEntry, if_pos (h.inside hd), hslot]
  simp only [if_neg hzero, if_neg hdel]

theorem findEntry_deleted (h : v.Place d c i) (hd : d.vol.Ok) (hslot : v.slot c i = some e)
    (hdel : e 0 = delFile) (fuel : ℕ) :
    v.findEntry (fuel + 1) read c i prev d = v.findEntry fuel true c (i + 1) prev d := by
  rw [findEntry, if_pos (h.inside hd), hslot]
  have hzero : e 0 ≠ 0 := by
    rw [hdel]
    decide
  simp only [if_neg hzero, if_pos hdel]

/-- Between two sectors the index only counts. -/
theorem findEntry_count (hd : d.vol.Ok) (hmin : clusterMinGood ≤ c)
    (hlast : c ≤ d.vol.lastCluster) (j : ℕ) : j < v.entriesPerSector → ∀ fuel,
      v.findEntry (fuel + j) true c v.entriesPerCluster prev d =
        v.findEntry fuel true c (v.entriesPerCluster + j) prev d := by
  have heof := eofCluster_gt hd
  have hc : c ≠ 0 ∧ c ≠ clusterInvalid ∧ c ≠ eofCluster := by
    unfold clusterMinGood at hmin
    unfold clusterInvalid
    omega
  induction j with
  | zero => exact fun _ _ => rfl
  | succ j ih =>
    intro hj fuel
    have hpast : ¬((c = 0 ∨ (v.entriesPerCluster + j) / v.entriesPerSector < v.sectorsPerCluster) ∧
        c ≠ eofCluster) := by
      rintro ⟨hzero | hlt, -⟩
      · exact hc.1 hzero
      · rw [entriesPerCluster, Nat.mul_add_div v.entriesPerSector_pos] at hlt
        exact absurd hlt (not_lt.mpr (Nat.le_add_right _ _))
    have hround : (v.entriesPerCluster + j + 1) % v.entriesPerSector ≠ 0 := by
      rw [entriesPerCluster, Nat.add_assoc, Nat.mul_add_mod, Nat.mod_eq_of_lt hj]
      omega
    have hstep : v.mfsIncrementDirIndex d c (v.entriesPerCluster + j) prev =
        (.noError, c, v.entriesPerCluster + j + 1, prev, d) := by
      rw [mfsIncrementDirIndex, if_neg hround]
    rw [← Nat.add_assoc, Nat.add_right_comm, ih (by omega), findEntry, if_neg hpast, hstep,
      if_neg (not_not.mpr rfl), if_neg]
    · rfl
    · rintro (h | h | h)
      · cases h
      · exact hc.2.2 h
      · exact hc.2.1 h

/-- Behind the last entry of a cluster the search goes on in the next one. -/
theorem findEntry_next (hd : d.InSync) (w : d.Reads) (hmin : clusterMinGood ≤ c)
    (hlast : c ≤ d.vol.lastCluster) (hvalid : fatNext d c ≠ clusterInvalid)
    (heof : fatNext d c ≠ eofCluster) : ∃ prev' d', d'.InSync ∧ d'.Reads ∧ SameTable d d' ∧
      ∀ fuel, v.findEntry (fuel + v.entriesPerSector) true c v.entriesPerCluster prev d =
        v.findEntry fuel true (fatNext d c) 0 prev' d' := by
  obtain ⟨d', hget, hsync, hframe, htable⟩ := mfsGetClusterFromFat_works hd w hmin hlast
  have hpos := v.entriesPerSector_pos
  have hc : c ≠ 0 := by
    unfold clusterMinGood at hmin
    omega
  refine ⟨if fatNext d c ≠ c ∧ fatNext d c ≠ clusterInvalid then c else prev, d', hsync,
    hframe.reads w, htable, fun fuel => ?_⟩
  have hcount := @findEntry_count v c prev d hd.vol hmin hlast (v.entriesPerSector - 1) (by omega)
    (fuel + 1)
  rw [show fuel + 1 + (v.entriesPerSector - 1) = fuel + v.entriesPerSector by omega] at hcount
  have hpast : ¬((c = 0 ∨ (v.entriesPerCluster + (v.entriesPerSector - 1)) / v.entriesPerSector <
      v.sectorsPerCluster) ∧ c ≠ eofCluster) := by
    rintro ⟨hzero | hlt, -⟩
    · exact hc hzero
    · rw [entriesPerCluster, Nat.mul_add_div hpos] at hlt
      exact absurd hlt (not_lt.mpr (Nat.le_add_right _ _))
  have hindex : v.entriesPerCluster + (v.entriesPerSector - 1) + 1 =
      v.entriesPerSector * (v.sectorsPerCluster + 1) := by
    rw [entriesPerCluster, Nat.mul_succ]
    omega
  have hstep : v.mfsIncrementDirIndex d c (v.entriesPerCluster + (v.entriesPerSector - 1)) prev =
      (.noError, fatNext d c, 0,
        if fatNext d c ≠ c ∧ fatNext d c ≠ clusterInvalid then c else prev, d') := by
    rw [mfsIncrementDirIndex, hindex, Nat.mul_mod_right, if_pos rfl, if_pos hc,
      Nat.mul_div_cancel_left _ hpos, if_pos (Nat.le_succ _), hget]
    rfl
  rw [hcount, findEntry, if_neg hpast, hstep, if_neg (not_not.mpr rfl), if_neg]
  rintro (h | h | h)
  · cases h
  · exact heof h
  · exact hvalid h

end DirDisk

end Mqx.Mfs
