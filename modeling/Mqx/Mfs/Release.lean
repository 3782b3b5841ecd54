import Mqx.Mfs.Extend

/-!
# Releasing a chain

`MFS_Release_chain`. Every entry that is followed is put to zero before the next one is read, so
the loop ends on any table. Its error is overwritten by that of the write-back behind it.
-/

namespace Mqx.Mfs

variable {d d' : Drive} {s s' : FileState} {c n : ℕ} {cl : List ℕ} {err : MfsError}

/-! ## The function -/

namespace FileState

/-- The data sector is given up if it lies in the cluster. -/
def forgetCluster (s : FileState) (cluster : ℕ) : FileState :=
  let firstSectorInCluster := s.clusterToSector cluster
  let lastSectorInCluster := firstSectorInCluster + s.layout.sectorsPerCluster - 1
  if firstSectorInCluster ≤ s.dataSectorNumber ∧ s.dataSectorNumber ≤ lastSectorInCluster then
    s.mfsInvalidateDataSector
  else s

/-- The loop of `MFS_Release_chain`; `none` when it has not ended after `n` rounds. -/
def releaseLoop : ℕ → ℕ → FileState → Option (MfsError × FileState)
  | 0, _, _ => none
  | n + 1, cluster, s =>
    let r := mfsGetClusterFromFat s.d cluster
    if r.1 ≠ .noError then some (r.1, { s with d := r.2.2 })
    else if (r.2.1.toNat > s.d.vol.lastCluster ∨ r.2.1.toNat < clusterMinGood) ∧
        r.2.1 ≠ clusterEof then
      some (.lostChain, { s with d := r.2.2 })
    else
      let s₁ := forgetCluster { s with d := r.2.2 } cluster
      let p := mfsPutFat s₁.d cluster clusterUnused
      if p.1 ≠ .noError then some (p.1, { s₁ with d := p.2 })
      else if r.2.1 = clusterEof then some (.noError, { s₁ with d := p.2 })
      else releaseLoop n r.2.1.toNat { s₁ with d := p.2 }

def mfsWriteBackFat (s : FileState) : MfsError × FileState :=
  if s.d.vol.readOnly then (.diskIsWriteProtected, s)
  else if s.layout.fatCachePolicy = .writeThrough then
    let r := mfsFlushFatCache s.d
    (r.1, { s with d := r.2 })
  else (.noError, s)

/-- `none` when the loop has not ended after as many rounds as there are clusters. -/
def mfsReleaseChain (s : FileState) (cluster : ℕ) : Option (MfsError × FileState) :=
  if s.d.vol.readOnly then some (.diskIsWriteProtected, s)
  else if clusterMinGood ≤ cluster ∧ cluster ≤ s.d.vol.lastCluster then
    (releaseLoop s.d.vol.lastCluster cluster s).map fun r => r.2.mfsWriteBackFat
  else some (.noError, s)

theorem forgetCluster_same (s : FileState) (cluster : ℕ) :
    (s.forgetCluster cluster).d = s.d ∧ (s.forgetCluster cluster).layout = s.layout := by
  unfold forgetCluster mfsInvalidateDataSector
  simp only
  split
  · split <;> exact ⟨rfl, rfl⟩
  · exact ⟨rfl, rfl⟩

end FileState

/-! ## One round -/

/-- A cluster whose entry names another cluster of the drive. -/
def LinkedOn (d : Drive) (e : ℕ) : Prop :=
  clusterMinGood ≤ fatNext d e ∧ fatNext d e ≤ d.vol.lastCluster

/-- The entry of `c` is put to zero, apart from its reserved bits. -/
structure Zeroed (d : Drive) (c : ℕ) (d' : Drive) : Prop where
  sync : d'.InSync
  vol : d'.vol = d.vol
  others : ∀ e ≤ d.vol.lastCluster, e ≠ c → rawEntry d' e = rawEntry d e
  free : c ∈ freeClusters d' ↔ Linkable d c

/-- The drive after the entry of `c` has been read and put to zero. -/
def zeroEntry (d : Drive) (c : ℕ) : Drive :=
  (mfsPutFat (mfsGetClusterFromFat d c).2.2 c clusterUnused).2

/-- Reading the entry of `c` and putting it to zero works. -/
def ZeroWorks (d : Drive) (c : ℕ) : Prop :=
  (mfsGetClusterFromFat d c).1 = .noError ∧
    (mfsPutFat (mfsGetClusterFromFat d c).2.2 c clusterUnused).1 = .noError

/-- So it does for the clusters of a list, one after the other. -/
def ReleasesAll : List ℕ → Drive → Prop
  | [], _ => True
  | e :: l, d => ZeroWorks d e ∧ ReleasesAll l (zeroEntry d e)

theorem zeroEntry_frame (d : Drive) (c : ℕ) :
    (zeroEntry d c).vol = d.vol ∧ (zeroEntry d c).ioFault = d.ioFault := by
  have hget := mfsGetClusterFromFat_frame d c
  have hput := mfsPutFat_frame (mfsGetClusterFromFat d c).2.2 c clusterUnused
  exact ⟨hput.1.trans hget.1, hput.2.trans hget.2⟩

theorem zeroed_of_works (h : d.InSync) (hz : ZeroWorks d c) : Zeroed d c (zeroEntry d c) := by
  obtain ⟨hmin, hlast, -, hsync, htable⟩ := mfsGetClusterFromFat_table h hz.1
  have hput : mfsPutFat (mfsGetClusterFromFat d c).2.2 c clusterUnused =
      (.noError, zeroEntry d c) := Prod.ext hz.2 rfl
  obtain ⟨-, -, hvol, hsync', -⟩ := mfsPutFat_noError hsync hput
  obtain ⟨hmod, hdiv, hothers⟩ := mfsPutFat_raw hsync hput
  have hvol' : (zeroEntry d c).vol = d.vol := hvol.trans htable.vol
  refine ⟨hsync', hvol', fun e he hne => ?_, ?_⟩
  · rw [hothers e (by rw [htable.vol]; exact he) hne, htable.entry e he]
  · rw [mem_freeClusters_raw hmin (by rw [hvol']; exact hlast), ← htable.linkable hlast, Linkable,
      ← hdiv, ← BitVec.toNat_inj]
    have hzero : clusterUnused.toNat = 0 := by decide
    rw [hzero, Nat.zero_mod] at hmod
    rw [hzero]
    constructor
    · intro h0
      rw [h0, Nat.zero_div]
    · intro hd
      have hsplit := Nat.div_add_mod (rawEntry (zeroEntry d c) c).toNat
        (2 ^ (mfsGetClusterFromFat d c).2.2.vol.fatType.codeBits)
      rw [hd, hmod] at hsplit
      exact hsplit.symm

/-- The same drive as far as its geometry and its faults go. -/
def SameDevice (s s' : FileState) : Prop :=
  s'.layout = s.layout ∧ s'.d.vol = s.d.vol ∧ s'.d.ioFault = s.d.ioFault

theorem SameDevice.works (h : SameDevice s s') (w : s.d.Works) : s'.d.Works := by
  refine ⟨?_, ?_, ?_⟩
  · rw [h.2.1]
    exact w.writable
  · rw [h.2.2]
    exact w.noFault
  · rw [h.2.1]
    exact w.inDevice

/-- A round stops with an error, and then no chain from `c` on can be released, or it puts the
entry to zero and ends the loop or goes on with the next cluster. -/
theorem releaseLoop_cases (h : s.d.InSync) (n c : ℕ) :
    (∃ err s', FileState.releaseLoop (n + 1) c s = some (err, s') ∧ err ≠ .noError ∧
      SameDevice s s' ∧ (∀ cl, ChainAt s.d c cl → ¬ReleasesAll cl s.d) ∧
      (s.d.Works → clusterMinGood ≤ c → c ≤ s.d.vol.lastCluster → s'.d.InSync)) ∨
    ∃ s₁, s₁.d = zeroEntry s.d c ∧ SameDevice s s₁ ∧ ZeroWorks s.d c ∧
      (fatNext s.d c = eofCluster ∧
          FileState.releaseLoop (n + 1) c s = some (.noError, s₁) ∨
        LinkedOn s.d c ∧ FileState.releaseLoop (n + 1) c s =
          FileState.releaseLoop n (fatNext s.d c) s₁) := by
  have hhead : ∀ cl, ChainAt s.d c cl → ReleasesAll cl s.d → ZeroWorks s.d c := by
    intro cl hc hr
    cases cl with
    | nil => exact absurd hc.start List.not_mem_nil
    | cons x cl =>
      rw [hc.links.1]
      exact hr.1
  have hframe := mfsGetClusterFromFat_frame s.d c
  have hframe' := zeroEntry_frame s.d c
  by_cases hget : (mfsGetClusterFromFat s.d c).1 = .noError
  · obtain ⟨hmin, hlast, hvalue, hsync, htable⟩ := mfsGetClusterFromFat_table h hget
    have hnat : (mfsGetClusterFromFat s.d c).2.1.toNat = fatNext s.d c := by
      rw [hvalue, fatNext]
    have heof : (mfsGetClusterFromFat s.d c).2.1 = clusterEof ↔ fatNext s.d c = eofCluster := by
      rw [hvalue, fatNext, ← BitVec.toNat_inj]
      rfl
    have hiff : ((mfsGetClusterFromFat s.d c).2.1.toNat > s.d.vol.lastCluster ∨
        (mfsGetClusterFromFat s.d c).2.1.toNat < clusterMinGood) ∧
        (mfsGetClusterFromFat s.d c).2.1 ≠ clusterEof ↔
        (fatNext s.d c > s.d.vol.lastCluster ∨ fatNext s.d c < clusterMinGood) ∧
          fatNext s.d c ≠ eofCluster := by
      rw [hnat]
      exact and_congr_right fun _ => not_congr heof
    by_cases hlost : (fatNext s.d c > s.d.vol.lastCluster ∨ fatNext s.d c < clusterMinGood) ∧
        fatNext s.d c ≠ eofCluster
    · left
      refine ⟨.lostChain, { s with d := (mfsGetClusterFromFat s.d c).2.2 }, ?_,
        by decide, ⟨rfl, hframe⟩, ?_, fun _ _ _ => hsync⟩
      · rw [FileState.releaseLoop, if_neg (not_not.mpr hget), if_pos (hiff.mpr hlost)]
      · intro cl hc _
        rcases hc.links.next_mem hc.start with hnext | hnext
        · have hr := hc.range _ hnext
          omega
        · exact hlost.2 hnext
    · have hgo : ∀ rest : Option (MfsError × FileState), (if
          ((mfsGetClusterFromFat s.d c).2.1.toNat > s.d.vol.lastCluster ∨
            (mfsGetClusterFromFat s.d c).2.1.toNat < clusterMinGood) ∧
          (mfsGetClusterFromFat s.d c).2.1 ≠ clusterEof then
            some (MfsError.lostChain, { s with d := (mfsGetClusterFromFat s.d c).2.2 })
          else rest) = rest := fun rest => if_neg fun hh => hlost (hiff.mp hh)
      obtain ⟨s₁, hs₁⟩ : ∃ s₁, FileState.forgetCluster
          { s with d := (mfsGetClusterFromFat s.d c).2.2 } c = s₁ := ⟨_, rfl⟩
      have hsame := FileState.forgetCluster_same { s with d := (mfsGetClusterFromFat s.d c).2.2 } c
      rw [hs₁] at hsame
      obtain ⟨hd₁, hlayout⟩ := hsame
      by_cases hput : (mfsPutFat (mfsGetClusterFromFat s.d c).2.2 c clusterUnused).1 = .noError
      · right
        refine ⟨{ s₁ with d := zeroEntry s.d c }, rfl, ⟨hlayout, hframe'⟩, ⟨hget, hput⟩, ?_⟩
        rw [FileState.releaseLoop, if_neg (not_not.mpr hget), hgo]
        simp only [hs₁, hd₁, hput, ne_eq, not_true_eq_false, if_false]
        by_cases hend : fatNext s.d c = eofCluster
        · rw [if_pos (heof.mpr hend)]
          exact Or.inl ⟨hend, rfl⟩
        · rw [if_neg (fun hh => hend (heof.mp hh)), hnat]
          refine Or.inr ⟨?_, rfl⟩
          unfold LinkedOn
          omega
      · left
        refine ⟨(mfsPutFat (mfsGetClusterFromFat s.d c).2.2 c clusterUnused).1,
          { s₁ with d := zeroEntry s.d c }, ?_, hput, ⟨hlayout, hframe'⟩,
          fun cl hc hr => hput (hhead cl hc hr).2, fun w _ _ => ?_⟩
        swap
        · have hread : SameDevice s { s with d := (mfsGetClusterFromFat s.d c).2.2 } := ⟨rfl, hframe⟩
          obtain ⟨d₁, hworks, -⟩ := mfsPutFat_works hsync (hread.works w) hmin
            (by rw [htable.vol]; exact hlast) clusterUnused
          exact absurd (congrArg Prod.fst hworks) hput
        rw [FileState.releaseLoop, if_neg (not_not.mpr hget), hgo]
        simp only [hs₁, hd₁, hput, ne_eq, not_false_eq_true, if_true]
        rfl
  · left
    refine ⟨(mfsGetClusterFromFat s.d c).1, { s with d := (mfsGetClusterFromFat s.d c).2.2 }, ?_,
      hget, ⟨rfl, hframe⟩, fun cl hc hr => hget (hhead cl hc hr).1, fun w hmin hlast => ?_⟩
    · rw [FileState.releaseLoop, if_pos hget]
    · obtain ⟨d₁, hworks, -⟩ := mfsGetClusterFromFat_works h w.reads hmin hlast
      exact absurd (congrArg Prod.fst hworks) hget

/-! ## The loop -/

instance (d : Drive) : DecidablePred (LinkedOn d) := fun e =>
  inferInstanceAs (Decidable (clusterMinGood ≤ fatNext d e ∧ fatNext d e ≤ d.vol.lastCluster))

/-- The clusters with a link to another one. -/
def linkedClusters (d : Drive) : Finset ℕ :=
  (Finset.Icc clusterMinGood d.vol.lastCluster).filter (LinkedOn d)

theorem LinkedOn.linkable (h : d.vol.Ok) (hl : LinkedOn d c) : Linkable d c := by
  by_contra hnot
  have heof := fatNext_of_reserved hnot
  have hgt := eofCluster_gt h
  have hle := hl.2
  omega

theorem not_linkedOn_of_free (hfree : c ∈ freeClusters d) : ¬LinkedOn d c := by
  intro hl
  have hzero : fatNext d c = 0 := by
    rw [fatNext, (mem_freeClusters.mp hfree).2.2]
    rfl
  have hmin := hl.1
  rw [hzero] at hmin
  exact absurd hmin (by decide)

/-- Every round takes a link away. -/
theorem linkedClusters_lt (h : d.vol.Ok) (hz : Zeroed d c d') (hmin : clusterMinGood ≤ c)
    (hlast : c ≤ d.vol.lastCluster) (hl : LinkedOn d c) :
    (linkedClusters d').card < (linkedClusters d).card := by
  have hfree : c ∈ freeClusters d' := hz.free.mpr (hl.linkable h)
  apply Finset.card_lt_card
  rw [Finset.ssubset_iff_of_subset]
  · refine ⟨c, ?_, fun hc => not_linkedOn_of_free hfree (Finset.mem_filter.mp hc).2⟩
    rw [linkedClusters, Finset.mem_filter, Finset.mem_Icc]
    exact ⟨⟨hmin, hlast⟩, hl⟩
  · intro e he
    rw [linkedClusters, Finset.mem_filter, Finset.mem_Icc, hz.vol] at he
    rw [linkedClusters, Finset.mem_filter, Finset.mem_Icc]
    refine ⟨he.1, ?_⟩
    have hne : e ≠ c := by
      rintro rfl
      exact not_linkedOn_of_free hfree he.2
    have hnext := fatNext_congr hz.vol (hz.others e he.1.2 hne)
    have hlinked := he.2
    rw [LinkedOn, hnext, hz.vol] at hlinked
    exact hlinked

theorem releaseLoop_isSome (n : ℕ) : ∀ {s : FileState} (c : ℕ), s.d.InSync →
    (linkedClusters s.d).card < n → (FileState.releaseLoop n c s).isSome := by
  induction n with
  | zero =>
    intro s c _ hn
    omega
  | succ n ih =>
    intro s c h hn
    rcases releaseLoop_cases h n c with ⟨err, s', hres, -⟩ | ⟨s₁, hd₁, -, hworks, hend | hgo⟩
    · rw [hres]
      rfl
    · rw [hend.2]
      rfl
    · obtain ⟨hmin, hlast, -⟩ := mfsGetClusterFromFat_table h hworks.1
      have hz := zeroed_of_works h hworks
      have hlt := linkedClusters_lt h.vol hz hmin hlast hgo.1
      rw [hgo.2]
      apply ih
      · rw [hd₁]
        exact hz.sync
      · rw [hd₁]
        omega

theorem SameDevice.trans {s₁ s₂ : FileState} (h : SameDevice s s₁) (h' : SameDevice s₁ s₂) :
    SameDevice s s₂ :=
  ⟨h'.1.trans h.1, h'.2.1.trans h.2.1, h'.2.2.trans h.2.2⟩

/-- All clusters but the last of a chain are free, and the last one is unless its entry had a
reserved bit. -/
structure Freed (d : Drive) (cl : List ℕ) (t : ℕ) (d' : Drive) : Prop where
  sync : d'.InSync
  others : ∀ e ≤ d.vol.lastCluster, e ∉ cl ++ [t] → rawEntry d' e = rawEntry d e
  links : ∀ e ∈ cl, e ∈ freeClusters d'
  last : t ∈ freeClusters d' ↔ Linkable d t

/-- The chain behind a released cluster. -/
theorem Zeroed.chain_cons (hz : Zeroed d c d') (h : d.vol.Ok) (hmin : clusterMinGood ≤ c)
    (hlast : c ≤ d.vol.lastCluster) (hl : LinkedOn d c) :
    ChainAt d' (fatNext d c) cl ↔ ChainAt d c (c :: cl) := by
  have hfree : c ∈ freeClusters d' := hz.free.mpr (hl.linkable h)
  constructor
  · intro hc
    have hout : c ∉ cl := fun hm => hc.not_free hm hfree
    refine ⟨⟨rfl, hc.links.congr fun e he => ?_⟩, ?_, List.mem_cons_self⟩
    · have hr := hc.range e he
      rw [hz.vol] at hr
      have hne : e ≠ c := fun heq => hout (heq ▸ he)
      exact (fatNext_congr hz.vol (hz.others e hr.2 hne)).symm
    · intro e he
      rcases List.mem_cons.mp he with rfl | he
      · exact ⟨hmin, hlast⟩
      · have hr := hc.range e he
        rwa [hz.vol] at hr
  · intro hc
    have hout : c ∉ cl := (List.nodup_cons.mp (hc.nodup h)).1
    refine ⟨hc.links.2.congr fun e he => ?_, ?_, ?_⟩
    · have hne : e ≠ c := fun heq => hout (heq ▸ he)
      exact fatNext_congr hz.vol (hz.others e (hc.range e (List.mem_cons_of_mem _ he)).2 hne)
    · intro e he
      rw [hz.vol]
      exact hc.range e (List.mem_cons_of_mem _ he)
    · -- the link of `c` is no chain end
      refine hc.links.2.head_mem fun heof => ?_
      have hgt := eofCluster_gt h
      have hle := hl.2
      omega

theorem releaseLoop_spec (n : ℕ) : ∀ {s s' : FileState} {c : ℕ} {err : MfsError}, s.d.InSync →
    FileState.releaseLoop n c s = some (err, s') → SameDevice s s' ∧
      ((err = .noError ∧ ∃ cl t, ChainAt s.d c (cl ++ [t]) ∧ ReleasesAll (cl ++ [t]) s.d ∧
          Freed s.d cl t s'.d) ∨
        (err ≠ .noError ∧ (∀ cl, ChainAt s.d c cl → ¬ReleasesAll cl s.d) ∧
          (s.d.Works → clusterMinGood ≤ c → c ≤ s.d.vol.lastCluster → s'.d.InSync))) := by
  induction n with
  | zero =>
    intro s s' c err _ hres
    exact nomatch hres
  | succ n ih =>
    intro s s' c err h hres
    rcases releaseLoop_cases h n c with ⟨err', s₁, hres', herr, hsame, hnone, hsync⟩ | ⟨s₁, hd₁,
      hsame, hworks, hend | hgo⟩
    · rw [hres'] at hres
      obtain ⟨rfl, rfl⟩ := Prod.mk.inj (Option.some.inj hres)
      exact ⟨hsame, Or.inr ⟨herr, hnone, hsync⟩⟩
    · rw [hend.2] at hres
      obtain ⟨rfl, rfl⟩ := Prod.mk.inj (Option.some.inj hres)
      obtain ⟨hmin, hlast, -⟩ := mfsGetClusterFromFat_table h hworks.1
      have hz := zeroed_of_works h hworks
      rw [hd₁]
      refine ⟨hsame, Or.inl ⟨rfl, [], c, ⟨⟨rfl, hend.1⟩, ?_, by simp⟩, ⟨hworks, trivial⟩, hz.sync,
        ?_, by simp, hz.free⟩⟩
      · intro e he
        rw [List.mem_singleton.mp he]
        exact ⟨hmin, hlast⟩
      · intro e he hne
        exact hz.others e he (by simpa using hne)
    · obtain ⟨hmin, hlast, -⟩ := mfsGetClusterFromFat_table h hworks.1
      have hz := zeroed_of_works h hworks
      have hchain : ∀ l, ChainAt _ (fatNext s.d c) l ↔ ChainAt s.d c (c :: l) :=
        fun l => hz.chain_cons h.vol hmin hlast hgo.1
      rw [hgo.2] at hres
      obtain ⟨hsame', hcases⟩ := ih (hd₁ ▸ hz.sync) hres
      refine ⟨hsame.trans hsame', ?_⟩
      rw [hd₁] at hcases
      rcases hcases with ⟨herr, cl, t, hc, hr, hf⟩ | ⟨herr, hnone, hsync⟩
      · left
        have hfree : c ∈ freeClusters (zeroEntry s.d c) := hz.free.mpr (hgo.1.linkable h.vol)
        have hout : c ∉ cl ++ [t] := fun hm => hc.not_free hm hfree
        have htc : t ≠ c := fun heq => hout (by simp [heq])
        have htlast : t ≤ s.d.vol.lastCluster := by
          have hr := (hc.range t (by simp)).2
          rwa [hz.vol] at hr
        refine ⟨herr, c :: cl, t, (hchain _).mp hc, ⟨hworks, hr⟩, hf.sync, ?_, ?_, ?_⟩
        · intro e he hne
          rw [hf.others e (by rw [hz.vol]; exact he) fun hm => hne (List.mem_cons_of_mem _ hm)]
          exact hz.others e he fun heq => hne (heq ▸ List.mem_cons_self)
        · intro e he
          rcases List.mem_cons.mp he with heq | he
          · rw [heq, mem_freeClusters_congr (hsame'.2.1.trans (by rw [hd₁]))
              fun hle => hf.others c hle hout]
            exact hfree
          · exact hf.links e he
        · rw [hf.last, Linkable, hz.others t htlast htc, hz.vol, Linkable]
      · right
        refine ⟨herr, fun cl hc hr => ?_, fun w _ _ => ?_⟩
        · cases cl with
          | nil => exact absurd hc.start List.not_mem_nil
          | cons x cl =>
            obtain rfl : c = x := hc.links.1
            exact hnone cl ((hchain cl).mpr hc) hr.2
        · apply hsync (hd₁ ▸ hsame.works w) hgo.1.1
          rw [hz.vol]
          exact hgo.1.2

/-! ## What is reported -/

/-- The chain at `c` can be released as a whole. -/
def ReleaseWorks (s : FileState) (c : ℕ) : Prop :=
  ∃ cl, ChainAt s.d c cl ∧ ReleasesAll cl s.d ∧ Linkable s.d (cl.getLastD 0)

/-- The clusters from `c` on were a chain, all of them have been put to `CLUSTER_UNUSED`, and read
so. -/
def Released (s : FileState) (c : ℕ) (s' : FileState) : Prop :=
  ∃ cl, ChainAt s.d c cl ∧ ReleasesAll cl s.d ∧ ∀ e ∈ cl, e ∈ freeClusters s'.d

/-- The call returns without an error only if the chain has been released. -/
def Reports (s : FileState) (c : ℕ) : Prop :=
  ∀ s', s.mfsReleaseChain c = some (.noError, s') → Released s c s'

theorem mfsWriteBackFat_free (h : s.d.InSync) :
    freeClusters s.mfsWriteBackFat.2.d = freeClusters s.d := by
  have hflush : freeClusters (mfsFlushFatCache s.d).2 = freeClusters s.d := by
    have htable : SameTable s.d (mfsFlushFatCache s.d).2 := by
      obtain ⟨dev, dirty, io, hframe⟩ := mfsFlushFatCache_frame s.d
      have hvol : (mfsFlushFatCache s.d).2.vol = s.d.vol := by rw [hframe]
      refine ⟨hvol, fun e he => rawEntry_congr h.vol hvol ?_ he⟩
      by_cases hno : (mfsFlushFatCache s.d).1 = .noError
      · obtain ⟨-, -, -, -, hbytes⟩ := mfsFlushFatCache_noError h (Prod.ext hno rfl)
        exact hbytes
      · exact (mfsFlushFatCache_error h hno).2.2
    exact htable.freeClusters
  unfold FileState.mfsWriteBackFat
  split
  · rfl
  · split
    · exact hflush
    · rfl

theorem mfsWriteBackFat_noError (hro : s.d.vol.readOnly = false)
    (hpolicy : s.layout.fatCachePolicy ≠ .writeThrough ∨ s.d.InSync ∧ s.d.Works) :
    s.mfsWriteBackFat.1 = .noError := by
  rw [FileState.mfsWriteBackFat, if_neg (by simp [hro])]
  rcases hpolicy with hpolicy | ⟨hsync, w⟩
  · rw [if_neg hpolicy]
  · split
    · obtain ⟨d', hflush, -⟩ := mfsFlushFatCache_works hsync w.reads
      rw [hflush]
    · rfl

/-- The loop ends on every table and with every pattern of device errors. The call returns without
an error only for a chain that has been released, if the drive is write protected or the clusters
are a chain, its entries can be read and put, and its last one has no reserved bit. If the table
is not written back, or no transfer fails, this is also necessary. -/
theorem release_chain_reports (h : s.d.InSync) (c : ℕ) : (s.mfsReleaseChain c).isSome ∧
    (clusterMinGood ≤ c → c ≤ s.d.vol.lastCluster →
      (s.d.vol.readOnly = true ∨ ReleaseWorks s c → Reports s c) ∧
      (s.layout.fatCachePolicy ≠ .writeThrough ∨ (∀ k, s.d.ioFault k = none) ∧
          s.d.vol.fatEnd ≤ s.d.vol.megaSectors + 1 →
        Reports s c → s.d.vol.readOnly = true ∨ ReleaseWorks s c)) := by
  have hloop : clusterMinGood ≤ c → c ≤ s.d.vol.lastCluster →
      (FileState.releaseLoop s.d.vol.lastCluster c s).isSome := by
    intro hmin hlast
    apply releaseLoop_isSome _ c h
    calc (linkedClusters s.d).card ≤ (Finset.Icc clusterMinGood s.d.vol.lastCluster).card :=
          Finset.card_filter_le _ _
      _ = s.d.vol.lastCluster + 1 - clusterMinGood := Nat.card_Icc _ _
      _ < s.d.vol.lastCluster := by
        unfold clusterMinGood at *
        omega
  constructor
  · unfold FileState.mfsReleaseChain
    split
    · rfl
    · split
      · next hin =>
        rw [Option.isSome_map]
        exact hloop hin.1 hin.2
      · rfl
  · intro hmin hlast
    by_cases hro : s.d.vol.readOnly = true
    · have hres : s.mfsReleaseChain c = some (.diskIsWriteProtected, s) := by
        rw [FileState.mfsReleaseChain, if_pos hro]
      refine ⟨fun _ s' hs' => ?_, fun _ _ => Or.inl hro⟩
      rw [hres] at hs'
      exact nomatch congrArg (fun r => r.map Prod.fst) hs'
    · obtain ⟨⟨err, s₁⟩, hend⟩ := Option.isSome_iff_exists.mp (hloop hmin hlast)
      have hres : s.mfsReleaseChain c = some s₁.mfsWriteBackFat := by
        rw [FileState.mfsReleaseChain, if_neg hro, if_pos ⟨hmin, hlast⟩, hend]
        rfl
      obtain ⟨hsame, hcases⟩ := releaseLoop_spec _ h hend
      have hunique : ∀ {cl cl' : List ℕ}, ChainAt s.d c cl → ChainAt s.d c cl' → cl = cl' :=
        fun hc hc' => hc.links.unique hc'.links (hc.eof_notMem h.vol) (hc'.eof_notMem h.vol)
      constructor
      · intro hcond s' hs'
        obtain ⟨cl, hc, hr, hl⟩ := hcond.resolve_left hro
        rcases hcases with ⟨-, cl', t, hc', hr', hf⟩ | ⟨-, hnone, -⟩
        · have heq := hunique hc hc'
          rw [heq, List.getLastD_concat] at hl
          have hwritten : s₁.mfsWriteBackFat.2 = s' :=
            congrArg Prod.snd (Option.some.inj (hres.symm.trans hs'))
          refine ⟨cl' ++ [t], hc', hr', fun e he => ?_⟩
          rw [← hwritten, mfsWriteBackFat_free hf.sync]
          rcases List.mem_append.mp he with he | he
          · exact hf.links e he
          · rw [List.mem_singleton.mp he]
            exact hf.last.mpr hl
        · exact absurd hr (hnone cl hc)
      · intro hpolicy hrep
        right
        have hro' : s₁.d.vol.readOnly = false := by
          rw [hsame.2.1]
          simpa using hro
        have hwritten : s₁.mfsWriteBackFat.1 = .noError := by
          apply mfsWriteBackFat_noError hro'
          rcases hpolicy with hpolicy | ⟨hfault, hdev⟩
          · left
            rw [hsame.1]
            exact hpolicy
          · right
            have w : s.d.Works := ⟨by simpa using hro, hfault, hdev⟩
            refine ⟨?_, hsame.works w⟩
            rcases hcases with ⟨-, cl', t, -, -, hf⟩ | ⟨-, -, hsync⟩
            · exact hf.sync
            · exact hsync w hmin hlast
        obtain ⟨cl, hc, hr, hfree⟩ := hrep s₁.mfsWriteBackFat.2
          (hres.trans (congrArg some (Prod.ext hwritten rfl)))
        rcases hcases with ⟨-, cl', t, hc', hr', hf⟩ | ⟨-, hnone, -⟩
        · have heq := hunique hc hc'
          subst heq
          refine ⟨cl' ++ [t], hc, hr, ?_⟩
          have ht := hfree t (by simp)
          rw [mfsWriteBackFat_free hf.sync] at ht
          rw [List.getLastD_concat]
          exact hf.last.mp ht
        · exact absurd hr (hnone cl hc)

/-- The chain of cluster 2 is released. -/
theorem release_chain_reports_short : Reports (noFile shortDrive) 2 := by
  have hspec := (release_chain_reports (s := noFile shortDrive) shortDrive_inSync 2).2 (by decide)
    (by decide)
  refine hspec.1 (Or.inr ⟨[2], shortDrive_chain, ⟨?_, trivial⟩, ?_⟩)
  · exact ⟨by decide, by decide⟩
  · decide

/-- The drive of `shortDrive` as it is mounted, with a device that fails. -/
def failingDrive : Drive :=
  { shortDrive with
    fatCacheStart := 2 ^ 32 - 1
    ioFault := fun _ => some fun _ => 0 }

theorem failingDrive_inSync : failingDrive.InSync :=
  ⟨shortDrive_inSync.vol, Or.inl rfl, fun hd => absurd hd (by decide),
    fun _ hin => absurd hin (by decide)⟩

/-- Cluster 3 is free, so that there is no chain from it on; and where the first read fails no
cluster is released. Neither is reported. -/
theorem release_chain_silent :
    (shortDrive.InSync ∧ ((noFile shortDrive).mfsReleaseChain 3).map Prod.fst = some .noError ∧
      ¬Reports (noFile shortDrive) 3) ∧
    failingDrive.InSync ∧
      ((noFile failingDrive).mfsReleaseChain 2).map Prod.fst = some .noError ∧
      ¬Reports (noFile failingDrive) 2 := by
  refine ⟨⟨shortDrive_inSync, by decide, fun hrep => ?_⟩, failingDrive_inSync, by decide,
    fun hrep => ?_⟩
  · have hres : ((noFile shortDrive).mfsReleaseChain 3).map Prod.fst = some .noError := by decide
    obtain ⟨⟨err, s'⟩, hs', rfl⟩ := Option.map_eq_some_iff.mp hres
    obtain ⟨cl, hc, -⟩ := hrep s' hs'
    exact hc.not_free hc.start (mem_freeClusters.mpr ⟨by decide, by decide, by decide⟩)
  · have hres : ((noFile failingDrive).mfsReleaseChain 2).map Prod.fst = some .noError := by decide
    obtain ⟨⟨err, s'⟩, hs', rfl⟩ := Option.map_eq_some_iff.mp hres
    obtain ⟨cl, hc, hr, -⟩ := hrep s' hs'
    cases cl with
    | nil => exact absurd hc.start List.not_mem_nil
    | cons x cl =>
      have hx : 2 = x := hc.links.1
      rw [← hx] at hr
      exact absurd hr.1.1 (by decide)

end Mqx.Mfs
