import Mqx.Mfs.Extend

/-!
# The cluster before a cluster

`MFS_get_prev_cluster`, which the reader of long file names calls when a name goes back over a
cluster boundary. The slow path reads the entry of the hint again and again.
-/

namespace Mqx.Mfs

variable {d d' : Drive} {c hint : ℕ}

/-- `CLUSTER_INVALID`. -/
def clusterInvalid : ℕ := 1

/-- The loop over `n` clusters from `i` on. -/
def searchPrev (cluster previousCluster : ℕ) : ℕ → ℕ → Drive → Option ℕ × Drive
  | 0, _, d => (none, d)
  | n + 1, i, d =>
    let r := mfsGetClusterFromFat d previousCluster
    if cluster = r.2.1.toNat then (some i, r.2.2)
    else searchPrev cluster previousCluster n (i + 1) r.2.2

/-- Returns the error, `*cluster_ptr`, and the drive. -/
def mfsGetPrevCluster (d : Drive) (rootCluster cluster previousCluster : ℕ) :
    MfsError × ℕ × Drive :=
  if (if d.vol.fatType = .fat32 then cluster = rootCluster else cluster = 0) then
    (.invalidClusterNumber, cluster, d)
  else
    let r := mfsGetClusterFromFat d previousCluster
    if previousCluster ≠ clusterInvalid ∧ cluster = r.2.1.toNat then
      (.noError, previousCluster, r.2.2)
    else
      let d₁ := if previousCluster ≠ clusterInvalid then r.2.2 else d
      if d.vol.fatType = .fat32 then (.invalidClusterNumber, cluster, d₁)
      else
        let p := searchPrev cluster previousCluster (d.vol.lastCluster + 1 - clusterMinGood)
          clusterMinGood d₁
        match p.1 with
        | some i => (.noError, i, p.2)
        | none => (.invalidClusterNumber, cluster, p.2)

/-- The cluster before `c` is found. -/
def FindsPrev (d : Drive) (rootCluster c hint : ℕ) : Prop :=
  (mfsGetPrevCluster d rootCluster c hint).1 = .noError ∧
    fatNext d (mfsGetPrevCluster d rootCluster c hint).2.1 = c

/-- The hint is a cluster of the drive before `c`, and its entry can be read. -/
def HintWorks (d : Drive) (c hint : ℕ) : Prop :=
  (clusterMinGood ≤ hint ∧ hint ≤ d.vol.lastCluster) ∧ fatNext d hint = c ∧
    (mfsGetClusterFromFat d hint).1 = .noError

/-- A refused read gives the chain end. -/
theorem mfsGetClusterFromFat_eof (h : ¬(clusterMinGood ≤ hint ∧ hint ≤ d.vol.lastCluster)) :
    (mfsGetClusterFromFat d hint).2.1.toNat = eofCluster ∧ (mfsGetClusterFromFat d hint).2.2 = d := by
  refine ⟨?_, (mfsGetClusterFromFat_refused h).2⟩
  unfold mfsGetClusterFromFat
  split
  · rfl
  · rw [if_pos (by omega)]
    rfl

/-- The slow path finds nothing that the hint is not before. -/
theorem searchPrev_none (n : ℕ) : ∀ (i : ℕ) {d : Drive}, d.InSync → d.Reads →
    c ≤ d.vol.lastCluster →
    ¬((clusterMinGood ≤ hint ∧ hint ≤ d.vol.lastCluster) ∧ fatNext d hint = c) →
    (searchPrev c hint n i d).1 = none := by
  induction n with
  | zero => exact fun _ _ _ _ _ _ => rfl
  | succ n ih =>
    intro i d h w hlast hnot
    rw [searchPrev]
    by_cases hin : clusterMinGood ≤ hint ∧ hint ≤ d.vol.lastCluster
    · obtain ⟨d', hget, hsync, hframe, htable⟩ := mfsGetClusterFromFat_works h w hin.1 hin.2
      have hne : c ≠ (entryCode d hint).toNat := fun heq => hnot ⟨hin, heq.symm⟩
      rw [hget, if_neg hne]
      apply ih (i + 1) hsync (hframe.reads w)
      · rw [htable.vol]
        exact hlast
      · rw [htable.vol, fatNext, htable.entryCode hin.2]
        exact hnot
    · obtain ⟨heof, hsame⟩ := mfsGetClusterFromFat_eof hin
      have hgt := eofCluster_gt h.vol
      rw [heof, if_neg (by omega), hsame]
      exact ih (i + 1) h w hlast hnot

/-- With the right hint the fast path returns it. -/
theorem mfsGetPrevCluster_hint (h : d.InSync) (hfat : d.vol.fatType ≠ .fat32) (rootCluster : ℕ)
    (hmin : clusterMinGood ≤ c) (hw : HintWorks d c hint) :
    ∃ d', mfsGetPrevCluster d rootCluster c hint = (.noError, hint, d') := by
  obtain ⟨⟨hhmin, -⟩, hnext, hget⟩ := hw
  obtain ⟨-, -, hvalue, -⟩ := mfsGetClusterFromFat_table h hget
  refine ⟨(mfsGetClusterFromFat d hint).2.2, ?_⟩
  have hnonzero : c ≠ 0 := by
    unfold clusterMinGood at hmin
    omega
  have hvalid : hint ≠ clusterInvalid := by
    unfold clusterMinGood at hhmin
    unfold clusterInvalid
    omega
  rw [mfsGetPrevCluster, if_neg (by rw [if_neg hfat]; exact hnonzero), if_pos]
  rw [hvalue]
  exact ⟨hvalid, hnext.symm⟩

/-- With any other hint nothing is found. -/
theorem mfsGetPrevCluster_none (h : d.InSync) (w : d.Reads) (hfat : d.vol.fatType ≠ .fat32)
    (rootCluster : ℕ) (hmin : clusterMinGood ≤ c) (hlast : c ≤ d.vol.lastCluster)
    (hnot : ¬((clusterMinGood ≤ hint ∧ hint ≤ d.vol.lastCluster) ∧ fatNext d hint = c)) :
    (mfsGetPrevCluster d rootCluster c hint).1 = .invalidClusterNumber := by
  have hnonzero : c ≠ 0 := by
    unfold clusterMinGood at hmin
    omega
  -- the drive in which the slow path starts
  obtain ⟨d₁, hd₁, hsync, hreads, htable, hother⟩ : ∃ d₁,
      (if hint ≠ clusterInvalid then (mfsGetClusterFromFat d hint).2.2 else d) = d₁ ∧
      d₁.InSync ∧ d₁.Reads ∧ SameTable d d₁ ∧ c ≠ (mfsGetClusterFromFat d hint).2.1.toNat := by
    by_cases hin : clusterMinGood ≤ hint ∧ hint ≤ d.vol.lastCluster
    · obtain ⟨d', hget, hsync, hframe, htable⟩ := mfsGetClusterFromFat_works h w hin.1 hin.2
      rw [hget]
      have hne : c ≠ (entryCode d hint).toNat := fun heq => hnot ⟨hin, heq.symm⟩
      split
      · exact ⟨d', rfl, hsync, hframe.reads w, htable, hne⟩
      · exact ⟨d, rfl, h, w, SameTable.refl d, hne⟩
    · obtain ⟨heof, hsame⟩ := mfsGetClusterFromFat_eof hin
      have hgt := eofCluster_gt h.vol
      rw [hsame, ite_self, heof]
      exact ⟨d, rfl, h, w, SameTable.refl d, by omega⟩
  have hnot₁ : ¬((clusterMinGood ≤ hint ∧ hint ≤ d₁.vol.lastCluster) ∧ fatNext d₁ hint = c) := by
    intro hh
    rw [htable.vol, fatNext] at hh
    rw [htable.entryCode hh.1.2] at hh
    exact hnot hh
  have hnone := searchPrev_none (d.vol.lastCluster + 1 - clusterMinGood) clusterMinGood hsync hreads
    (by rw [htable.vol]; exact hlast) hnot₁
  rw [mfsGetPrevCluster, if_neg (by rw [if_neg hfat]; exact hnonzero),
    if_neg (fun hh => hother hh.2), hd₁]
  simp only [if_neg hfat]
  rw [hnone]

/-- On a FAT12 or FAT16 drive the cluster before a cluster is found if the hint is that cluster and
can be read. Without device errors it is found with no other hint, and whatever is returned
without an error is before the cluster. -/
theorem get_prev_cluster (h : d.InSync) (hfat : d.vol.fatType ≠ .fat32) (rootCluster c hint : ℕ)
    (hmin : clusterMinGood ≤ c) (hlast : c ≤ d.vol.lastCluster) :
    (HintWorks d c hint → FindsPrev d rootCluster c hint) ∧
    (d.Reads → (FindsPrev d rootCluster c hint ↔ HintWorks d c hint) ∧
      ((mfsGetPrevCluster d rootCluster c hint).1 = .noError →
        fatNext d (mfsGetPrevCluster d rootCluster c hint).2.1 = c)) := by
  have hfinds : HintWorks d c hint → FindsPrev d rootCluster c hint := by
    intro hw
    obtain ⟨d', hres⟩ := mfsGetPrevCluster_hint h hfat rootCluster hmin hw
    rw [FindsPrev, hres]
    exact ⟨rfl, hw.2.1⟩
  refine ⟨hfinds, fun w => ?_⟩
  by_cases hright : (clusterMinGood ≤ hint ∧ hint ≤ d.vol.lastCluster) ∧ fatNext d hint = c
  · obtain ⟨d', hget, -⟩ := mfsGetClusterFromFat_works h w hright.1.1 hright.1.2
    have hw : HintWorks d c hint := ⟨hright.1, hright.2, by rw [hget]⟩
    exact ⟨iff_of_true (hfinds hw) hw, fun _ => (hfinds hw).2⟩
  · have hres := mfsGetPrevCluster_none h w hfat rootCluster hmin hlast hright
    have herr : (mfsGetPrevCluster d rootCluster c hint).1 ≠ .noError := by
      rw [hres]
      exact fun he => nomatch he
    exact ⟨iff_of_false (fun hf => herr hf.1) (fun hw => hright ⟨hw.1, hw.2.1⟩),
      fun hno => absurd hno herr⟩

/-- A FAT12 drive of the clusters 2 to 4, with cluster 3 behind cluster 2. -/
def linkedDrive : Drive :=
  { filledDrive .fat12 2 3 0 with
    fatCache := fun o => if o = 3 then 0x03 else if o = 4 then 0xF0 else if o = 5 then 0xFF else 0
    device := fun s o => if s = 1 then
      (if o = 3 then 0x03 else if o = 4 then 0xF0 else if o = 5 then 0xFF else 0) else 0 }

theorem linkedDrive_inSync : linkedDrive.InSync := by
  have hok : (filledDrive .fat12 2 3 0).vol.Ok :=
    (filledDrive_inSync .fat12 0 (by decide) (by decide) (by decide) (by decide)).vol
  refine ⟨hok, Or.inr (by decide), fun hd => absurd hd (by decide), fun _ _ k hk o ho => ?_⟩
  have hk' : k < 2 := hk
  have ho' : o < 512 := ho
  simp only [linkedDrive, filledDrive]
  rcases Nat.lt_or_ge k 1 with h0 | h1
  · obtain rfl : k = 0 := by omega
    simp
  · obtain rfl : k = 1 := by omega
    rw [if_neg (by omega), if_neg (by omega), if_neg (by omega), if_neg (by omega)]

theorem linkedDrive_reads : linkedDrive.Reads := ⟨fun _ => rfl, by decide⟩

/-- The hint is right. -/
theorem get_prev_cluster_two : FindsPrev linkedDrive 0 3 2 := by
  refine (get_prev_cluster linkedDrive_inSync (by decide) 0 3 2 (by decide) (by decide)).1 ?_
  exact ⟨by decide, by decide, by decide⟩

/-- Cluster 3 is behind cluster 2, which is not found without a hint or with a wrong one. -/
theorem get_prev_cluster_stale : linkedDrive.InSync ∧ linkedDrive.Reads ∧
    fatNext linkedDrive 2 = 3 ∧ ¬FindsPrev linkedDrive 0 3 clusterInvalid ∧
    ¬FindsPrev linkedDrive 0 3 4 := by
  refine ⟨linkedDrive_inSync, linkedDrive_reads, by decide, fun hf => ?_, fun hf => ?_⟩
  · exact absurd hf.1 (by decide)
  · exact absurd hf.1 (by decide)

end Mqx.Mfs
