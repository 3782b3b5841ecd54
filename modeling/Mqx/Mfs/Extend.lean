import Mqx.Library.Linked
import Mqx.Mfs.FreeClusters

/-!
# Extending a chain

`MFS_Extend_chain`. The cluster that has just been linked keeps its zero entry until the next one
is linked to it, so the search for the next one can return it again: it is the last cluster of its
own search, and comes back when no other is free.
-/

namespace Mqx.Mfs

variable {d d' : Drive} {s : FileState} {c n : ℕ} {cl : List ℕ}

/-! ## The function -/

namespace FileState

/-- The end of `MFS_Extend_chain`: `left` clusters are missing, `added` is the first one that was
linked. -/
def extendEnd (left cluster : ℕ) (added : Option ℕ) (s : FileState) :
    MfsError × Option ℕ × FileState :=
  if added.isSome then
    let p := mfsPutFat s.d cluster clusterEof
    (if left ≠ 0 ∧ p.1 = .noError then .diskFull else p.1, added, { s with d := p.2 })
  else (if left ≠ 0 then .diskFull else .noError, added, s)

/-- The loop of `MFS_Extend_chain`, with `left` clusters to go. -/
def extendLoop : ℕ → ℕ → Option ℕ → FileState → MfsError × Option ℕ × FileState
  | 0, cluster, added, s => extendEnd 0 cluster added s
  | left + 1, cluster, added, s =>
    match s.mfsFindUnusedClusterFrom (cluster + 1) with
    | (none, s₁) => extendEnd (left + 1) cluster added s₁
    | (some c, s₁) =>
      let p := mfsPutFat s₁.d cluster (BitVec.ofNat 32 c)
      if p.1 ≠ .noError then (p.1, added, { s₁ with d := p.2 })
      else extendLoop left c (added.or (some c)) { s₁ with d := p.2 }

/-- Returns the error, `*added_cluster` if it is stored, and the state. -/
def mfsExtendChain (s : FileState) (cluster numClusters : ℕ) : MfsError × Option ℕ × FileState :=
  if s.d.vol.readOnly then (.diskIsWriteProtected, none, s)
  else if cluster < clusterMinGood ∨ cluster > s.d.vol.lastCluster then
    (.invalidClusterNumber, none, s)
  else if numClusters = 0 then (.noError, none, s)
  else
    let e := chainEnd s.d.vol.lastCluster cluster s.d
    if e.1 ≠ .noError then (e.1, none, { s with d := e.2.2 })
    else extendLoop numClusters e.2.1 none { s with d := e.2.2 }

/-- `MFS_Add_cluster_to_chain` on the current cluster of a handle. -/
theorem mfsAddClusterToChain_eq (s : FileState) (cluster : ℕ) :
    s.mfsAddClusterToChain cluster =
      ((s.mfsExtendChain cluster 1).1, (s.mfsExtendChain cluster 1).2.1.elim
        (s.mfsExtendChain cluster 1).2.2
        fun c => { (s.mfsExtendChain cluster 1).2.2 with currentCluster := c }) := by
  unfold mfsAddClusterToChain mfsExtendChain
  split
  · rfl
  · split
    · rfl
    · rw [if_neg one_ne_zero]
      simp only
      split
      · rfl
      · rw [extendLoop]
        split
        · next hf => simp [hf, extendEnd]
        · next hf =>
          simp only [hf, Option.none_or]
          split
          · rfl
          · simp [extendLoop, extendEnd]

end FileState

/-! ## Chains -/

/-- The cluster that the entry of `c` names. -/
def fatNext (d : Drive) (c : ℕ) : ℕ := (entryCode d c).toNat

theorem fatNext_congr (hvol : d'.vol = d.vol) {e : ℕ} (hraw : rawEntry d' e = rawEntry d e) :
    fatNext d' e = fatNext d e := by
  rw [rawEntry, rawEntry, hvol] at hraw
  rw [fatNext, fatNext, entryCode, entryCode, hvol, hraw]

/-- From cluster `c` on the clusters `cl` of the drive are a chain that ends in `CLUSTER_EOF`. -/
structure ChainAt (d : Drive) (c : ℕ) (cl : List ℕ) : Prop where
  links : PointerList.Linked (fatNext d) c cl eofCluster
  range : ∀ e ∈ cl, clusterMinGood ≤ e ∧ e ≤ d.vol.lastCluster
  start : c ∈ cl

theorem eofCluster_gt (h : d.vol.Ok) : d.vol.lastCluster < eofCluster := by
  have hlast := h.last_le
  have heof : eofCluster = 0x0FFFFFFF := rfl
  omega

namespace ChainAt

theorem eof_notMem (hc : ChainAt d c cl) (h : d.vol.Ok) : eofCluster ∉ cl := by
  intro hm
  have hle := (hc.range _ hm).2
  have hgt := eofCluster_gt h
  omega

theorem nodup (hc : ChainAt d c cl) (h : d.vol.Ok) : cl.Nodup := hc.links.nodup (hc.eof_notMem h)

/-- No cluster of a chain is free. -/
theorem not_free (hc : ChainAt d c cl) {e : ℕ} (he : e ∈ cl) : e ∉ freeClusters d := by
  intro hm
  have hzero : fatNext d e = 0 := by
    rw [fatNext, (mem_freeClusters.mp hm).2.2]
    rfl
  rcases hc.links.next_mem he with hnext | hnext
  · rw [hzero] at hnext
    exact absurd (hc.range _ hnext).1 (by decide)
  · rw [hzero] at hnext
    exact absurd hnext (by decide)

theorem length_le (hc : ChainAt d c cl) (h : d.vol.Ok) : cl.length ≤ d.vol.lastCluster := by
  have hsub : cl.toFinset ⊆ Finset.Icc clusterMinGood d.vol.lastCluster := by
    intro e he
    rw [Finset.mem_Icc]
    exact hc.range e (List.mem_toFinset.mp he)
  have hcard := Finset.card_le_card hsub
  rw [List.toFinset_card_of_nodup (hc.nodup h), Nat.card_Icc] at hcard
  unfold clusterMinGood at hcard
  omega

theorem sameTable (hc : ChainAt d c cl) (ht : SameTable d d') : ChainAt d' c cl := by
  refine ⟨hc.links.congr fun e he => ?_, ?_, hc.start⟩
  · rw [fatNext, fatNext, ht.entryCode (hc.range e he).2]
  · rw [ht.vol]
    exact hc.range

end ChainAt

namespace ChainAt

variable {pre : List ℕ} {t : ℕ} (hc : ChainAt d c (pre ++ [t])) (hvol : d'.vol = d.vol)

include hc hvol

/-- The links before the last cluster stay when only free entries and the last one change. -/
theorem prefix_linked (h : d.vol.Ok)
    (hraw : ∀ e ≤ d.vol.lastCluster, e ≠ t → e ∉ freeClusters d → rawEntry d' e = rawEntry d e) :
    PointerList.Linked (fatNext d') c pre t := by
  refine (PointerList.linked_append_cons.mp hc.links).1.congr fun e he => ?_
  have hmem : e ∈ pre ++ [t] := List.mem_append_left _ he
  apply fatNext_congr hvol
  apply hraw e (hc.range e hmem).2 _ (hc.not_free hmem)
  rintro rfl
  exact (List.nodup_append.mp (hc.nodup h)).2.2 e he e List.mem_cons_self rfl

theorem cut_behind (hpre : PointerList.Linked (fatNext d') c pre t)
    (hcut : fatNext d' t = eofCluster) : ChainAt d' c (pre ++ [t]) := by
  refine ⟨PointerList.linked_append_cons.mpr ⟨hpre, hcut⟩, ?_, hc.start⟩
  rw [hvol]
  exact hc.range

/-- Another chain is linked behind the last cluster. -/
theorem linked_behind (hpre : PointerList.Linked (fatNext d') c pre t) {e : ℕ} {l : List ℕ}
    (hlink : fatNext d' t = e) (hl : PointerList.Linked (fatNext d') e l eofCluster)
    (hrange : ∀ x ∈ l, clusterMinGood ≤ x ∧ x ≤ d.vol.lastCluster) :
    ChainAt d' c (pre ++ [t] ++ l) := by
  refine ⟨?_, ?_, List.mem_append_left _ hc.start⟩
  · rw [List.append_assoc, List.singleton_append, PointerList.linked_append_cons, hlink]
    exact ⟨hpre, hl⟩
  · intro x hx
    rw [hvol]
    rcases List.mem_append.mp hx with hx | hx
    · exact hc.range x hx
    · exact hrange x hx

end ChainAt

/-- The loop that looks for the end of a chain. -/
theorem chainEnd_chain (hlast : d.vol.lastCluster < eofCluster) (cl : List ℕ) :
    ∀ {n c : ℕ} {d₁ : Drive}, d₁.InSync → d₁.Works → d₁.vol = d.vol → ∀ t : ℕ,
      PointerList.Linked (fatNext d₁) c (cl ++ [t]) eofCluster →
      (∀ e ∈ cl ++ [t], clusterMinGood ≤ e ∧ e ≤ d.vol.lastCluster) → cl.length < n →
      ∃ d₂, chainEnd n c d₁ = (.noError, t, d₂) ∧ d₂.InSync ∧ FatFrame d₁ d₂ ∧
        SameTable d₁ d₂ := by
  induction cl with
  | nil =>
    intro n c d₁ h w hvol t hlink hrange hn
    obtain ⟨n, rfl⟩ : ∃ m, n = m + 1 := ⟨n - 1, by simp only [List.length_nil] at hn; omega⟩
    obtain ⟨rfl, heof⟩ := hlink
    obtain ⟨hmin, hle⟩ := hrange c (by simp)
    obtain ⟨d₂, hget, hsync, hframe, htable⟩ := mfsGetClusterFromFat_works h w.reads hmin
      (by rw [hvol]; exact hle)
    have hcode : entryCode d₁ c = clusterEof := BitVec.eq_of_toNat_eq heof
    refine ⟨d₂, ?_, hsync, hframe, htable⟩
    rw [chainEnd, hget, hcode]
    rfl
  | cons x cl ih =>
    intro n c d₁ h w hvol t hlink hrange hn
    obtain ⟨n, rfl⟩ : ∃ m, n = m + 1 := ⟨n - 1, by simp only [List.length_cons] at hn; omega⟩
    obtain ⟨rfl, hrest⟩ := hlink
    obtain ⟨hmin, hle⟩ := hrange c (by simp)
    obtain ⟨d₂, hget, hsync, hframe, htable⟩ := mfsGetClusterFromFat_works h w.reads hmin
      (by rw [hvol]; exact hle)
    have hrange' : ∀ e ∈ cl ++ [t], clusterMinGood ≤ e ∧ e ≤ d.vol.lastCluster := fun e he =>
      hrange e (List.mem_cons_of_mem _ he)
    -- the next cluster is on the drive
    obtain ⟨hnmin, hnle⟩ : clusterMinGood ≤ fatNext d₁ c ∧ fatNext d₁ c ≤ d.vol.lastCluster := by
      cases cl with
      | nil => exact hrange' _ (by rw [hrest.1]; simp)
      | cons y cl => exact hrange' _ (by rw [hrest.1]; simp)
    have hlink' : PointerList.Linked (fatNext d₂) (fatNext d₁ c) (cl ++ [t]) eofCluster :=
      hrest.congr fun e he => by
        rw [fatNext, fatNext, htable.entryCode (by rw [hvol]; exact (hrange' e he).2)]
    obtain ⟨d₃, hend, hsync', hframe', htable'⟩ := ih (n := n) hsync (hframe.works w)
      (htable.vol.trans hvol) t hlink' hrange' (by simp only [List.length_cons] at hn; omega)
    refine ⟨d₃, ?_, hsync', hframe.trans hframe', htable.trans htable'⟩
    have hne : entryCode d₁ c ≠ clusterEof := by
      intro heof
      have hnat : fatNext d₁ c = eofCluster := by rw [fatNext, heof]; rfl
      omega
    rw [chainEnd, hget]
    simp only [ne_eq, not_true_eq_false, if_false]
    rw [if_neg hne, if_neg]
    · exact hend
    · rw [hvol]
      unfold fatNext at hnmin hnle
      omega

/-! ## The next free cluster -/

/-- A search behind a cluster returns that cluster only if no other is free. -/
theorem findUnused_behind (h : s.d.InSync) (w : s.d.Works) (hmin : clusterMinGood ≤ c)
    (hlast : c ≤ s.d.vol.lastCluster) :
    (∃ s₁, s.mfsFindUnusedClusterFrom (c + 1) = (none, s₁) ∧ s₁.d.InSync ∧ FatFrame s.d s₁.d ∧
      SameTable s.d s₁.d ∧ freeClusters s.d = ∅) ∨
    ∃ e s₁, s.mfsFindUnusedClusterFrom (c + 1) = (some e, s₁) ∧ s₁.d.InSync ∧
      FatFrame s.d s₁.d ∧ SameTable s.d s₁.d ∧ e ∈ freeClusters s.d ∧
      (e = c → freeClusters s.d = {c}) := by
  rcases findUnused_spec h w (c + 1) with ⟨d₁, hfind, hsync, hframe, htable, hnone⟩ | ⟨e, d₁,
    hfind, hsync, hframe, htable, hemin, helast, hefree⟩
  · left
    refine ⟨_, hfind, hsync, hframe, htable, ?_⟩
    apply Finset.eq_empty_of_forall_notMem
    intro x hx
    obtain ⟨hxmin, hxlast, hxfree⟩ := mem_freeClusters.mp hx
    exact hnone (by omega) x hxmin hxlast hxfree
  · right
    have hmem : e ∈ freeClusters s.d := mem_freeClusters.mpr ⟨hemin, helast, hefree⟩
    refine ⟨e, _, hfind, hsync, hframe, htable, hmem, ?_⟩
    rintro rfl
    -- `e` is the last cluster of the search
    have horder : ∃ l, searchOrder s.d.vol (e + 1) = l ++ [e] ∧ e ∉ l := by
      refine ⟨List.range' (e + 1) (s.d.vol.lastCluster + 1 - (e + 1)) ++
        List.range' clusterMinGood (e - clusterMinGood), ?_, ?_⟩
      · rw [searchOrder, List.append_assoc]
        have hlen : min (e + 1) (s.d.vol.lastCluster + 1) - clusterMinGood =
            e - clusterMinGood + 1 := by omega
        have hend : clusterMinGood + (e - clusterMinGood) = e := by omega
        rw [hlen, List.range'_concat, Nat.one_mul, hend]
      · rw [List.mem_append, List.mem_range'_1, List.mem_range'_1]
        omega
    obtain ⟨l, hl, hel⟩ := horder
    have hres := findUnused_order s (e + 1)
    rw [hfind, if_neg (by simp [w.writable])] at hres
    have hfound : (searchList (searchOrder s.d.vol (e + 1)) s.d).1 = .found e := by
      cases hsearch : (searchList (searchOrder s.d.vol (e + 1)) s.d).1 with
      | found x =>
        rw [hsearch, FileState.Search.cluster] at hres
        rw [Option.some.inj hres]
      | failed =>
        rw [hsearch] at hres
        cases hres
      | exhausted =>
        rw [hsearch] at hres
        cases hres
    obtain ⟨a, b, hab, hused, -, -⟩ := (searchList_found_iff _ h e).mp hfound
    have hla : l = a := by
      rw [hl] at hab
      exact ((List.append_cons_inj_of_notMem hel List.not_mem_nil).mp hab).1
    ext x
    rw [Finset.mem_singleton]
    constructor
    · intro hx
      by_contra hne
      obtain ⟨hxmin, hxlast, -⟩ := mem_freeClusters.mp hx
      have hin := (mem_searchOrder (v := s.d.vol) (by omega : clusterMinGood ≤ e + 1)).mpr
        ⟨hxmin, hxlast⟩
      rw [hl, List.mem_append, List.mem_singleton] at hin
      exact hused x (hla ▸ hin.resolve_right hne) hx
    · rintro rfl
      exact hmem

/-! ## The loop -/

/-- An entry with a reserved bit reads as a chain end. -/
theorem fatNext_of_reserved {e : ℕ} (h : ¬Linkable d e) : fatNext d e = eofCluster := by
  have hmax : (clusterMax d.vol.fatType).toNat < 2 ^ d.vol.fatType.codeBits := by
    cases d.vol.fatType <;> decide
  have hge : (clusterMax d.vol.fatType).toNat ≤ (rawEntry d e).toNat := by
    by_contra hlt
    exact h (Nat.div_eq_of_lt (by omega))
  rw [rawEntry] at hge
  rw [fatNext, entryCode, clusterNumber_toNat, if_pos hge]
  rfl

/-- A cluster number put into an entry with or without reserved bits. -/
theorem mfsPutFat_link (h : d.InSync) (w : d.Works) {t : ℕ} (hcodes : d.vol.lastCluster <
    (clusterMax d.vol.fatType).toNat) (htmin : clusterMinGood ≤ t) (htlast : t ≤ d.vol.lastCluster)
    (hmin : clusterMinGood ≤ c) (hlast : c ≤ d.vol.lastCluster) :
    ∃ d', mfsPutFat d t (BitVec.ofNat 32 c) = (.noError, d') ∧ d'.InSync ∧ FatFrame d d' ∧
      (∀ e ≤ d.vol.lastCluster, e ≠ t → rawEntry d' e = rawEntry d e) ∧
      (Linkable d t → fatNext d' t = c) ∧ (Linkable d' t ↔ Linkable d t) ∧ t ∉ freeClusters d' := by
  obtain ⟨d', hput, hsync, hframe, hentry⟩ := mfsPutFat_works h w htmin htlast (BitVec.ofNat 32 c)
  have hlt : c < 2 ^ 32 := lt_of_le_of_lt hlast (hcodes.trans (clusterMax d.vol.fatType).isLt)
  have hnat : (BitVec.ofNat 32 c).toNat = c := by
    rw [BitVec.toNat_ofNat, Nat.mod_eq_of_lt hlt]
  have hcode : BitVec.ofNat 32 c < clusterMax d.vol.fatType := by
    rw [BitVec.lt_def, hnat]
    omega
  have hlink : Linkable d t → fatNext d' t = c := by
    intro hl
    rw [fatNext, hentry.code (Or.inr ⟨hcode, hl⟩), hnat]
  refine ⟨d', hput, hsync, hframe, hentry.others, hlink, hentry.linkable, fun hfree => ?_⟩
  have hunused := (mem_freeClusters.mp hfree).2.2
  have hl := hentry.linkable.mp (linkable_of_unused hunused)
  have hzero := hlink hl
  rw [fatNext, hunused] at hzero
  rw [← hzero] at hmin
  exact absurd hmin (by decide)

/-- Entries that are not changed are free if they were. -/
theorem mem_freeClusters_congr (hvol : d'.vol = d.vol) {e : ℕ} (hraw : e ≤ d.vol.lastCluster →
    rawEntry d' e = rawEntry d e) : e ∈ freeClusters d' ↔ e ∈ freeClusters d := by
  by_cases hin : clusterMinGood ≤ e ∧ e ≤ d.vol.lastCluster
  · rw [mem_freeClusters_raw hin.1 hin.2, mem_freeClusters_raw hin.1 (by rw [hvol]; exact hin.2),
      hraw hin.2]
  · rw [mem_freeClusters, mem_freeClusters, hvol]
    exact iff_of_false (fun hm => hin ⟨hm.1, hm.2.1⟩) (fun hm => hin ⟨hm.1, hm.2.1⟩)

/-- What the loop makes of a cluster `c` with a zero entry when `left` more are to be linked: a
chain of `c` and clusters that were free. -/
structure Extended (d : Drive) (c left : ℕ) (err : MfsError) (d' : Drive) (ext : List ℕ) : Prop where
  sync : d'.InSync
  frame : FatFrame d d'
  nodup : ext.Nodup
  free : ∀ e ∈ ext, e ∈ freeClusters d ∧ e ≠ c
  links : PointerList.Linked (fatNext d') c (c :: ext) eofCluster
  others : ∀ e ≤ d.vol.lastCluster, e ∉ c :: ext → rawEntry d' e = rawEntry d e
  fewer : left < (freeClusters d).card → err = .noError ∧ ext.length = left
  last : left = (freeClusters d).card → err = .noError ∧ ext.length + 1 = left
  more : (freeClusters d).card < left → err = .diskFull ∧
    ext.length + 1 = (freeClusters d).card

/-- The chain end is put behind the last cluster. -/
theorem extendEnd_some (h : s.d.InSync) (w : s.d.Works) (hmin : clusterMinGood ≤ c)
    (hlast : c ≤ s.d.vol.lastCluster) (left a : ℕ) :
    ∃ s', FileState.extendEnd left c (some a) s =
        (if left ≠ 0 then .diskFull else .noError, some a, s') ∧ s'.d.InSync ∧
      FatFrame s.d s'.d ∧ (∀ e ≤ s.d.vol.lastCluster, e ≠ c → rawEntry s'.d e = rawEntry s.d e) ∧
      fatNext s'.d c = eofCluster := by
  obtain ⟨d', hput, hsync, hframe, hentry⟩ := mfsPutFat_works h w hmin hlast clusterEof
  refine ⟨{ s with d := d' }, ?_, hsync, hframe, hentry.others, ?_⟩
  · rw [FileState.extendEnd, if_pos Option.isSome_some, hput]
    simp only [and_true]
  · rw [fatNext, hentry.code (Or.inl rfl)]
    rfl

theorem extendLoop_spec (n : ℕ) : ∀ {s : FileState} {c : ℕ} (a : ℕ), s.d.InSync → s.d.Works →
    s.d.vol.lastCluster < (clusterMax s.d.vol.fatType).toNat → c ∈ freeClusters s.d →
    ∃ err s' ext, FileState.extendLoop n c (some a) s = (err, some a, s') ∧
      Extended s.d c n err s'.d ext := by
  induction n with
  | zero =>
    intro s c a h w _ hc
    obtain ⟨hmin, hlast, -⟩ := mem_freeClusters.mp hc
    obtain ⟨s', hend, hsync, hframe, hothers, heof⟩ := extendEnd_some h w hmin hlast 0 a
    have hpos : 0 < (freeClusters s.d).card := Finset.card_pos.mpr ⟨c, hc⟩
    refine ⟨.noError, s', [], hend, hsync, hframe, List.nodup_nil, by simp, ⟨rfl, heof⟩, ?_,
      fun _ => ⟨rfl, rfl⟩, by omega, by omega⟩
    intro e he hne
    exact hothers e he (by simpa using hne)
  | succ n ih =>
    intro s c a h w hcodes hc
    obtain ⟨hmin, hlast, hunused⟩ := mem_freeClusters.mp hc
    rcases findUnused_behind h w hmin hlast with ⟨s₁, -, -, -, -, hnone⟩ | ⟨e, s₁, hfind, hsync₁,
      hframe₁, htable₁, he, hself⟩
    · rw [hnone] at hc
      exact absurd hc (Finset.notMem_empty c)
    · have hvol₁ := htable₁.vol
      obtain ⟨hemin, helast, -⟩ := mem_freeClusters.mp he
      obtain ⟨d₂, hput, hsync₂, hframe₂, hothers₂, hlink, -, hused⟩ := mfsPutFat_link hsync₁
        (hframe₁.works w) (by rw [hvol₁]; exact hcodes) hmin (by rw [hvol₁]; exact hlast) hemin
        (by rw [hvol₁]; exact helast)
      have hvol₂ : d₂.vol = s.d.vol := hframe₂.vol.trans hvol₁
      have hframe := hframe₁.trans hframe₂
      have w₂ := hframe.works w
      have hraw : ∀ x ≤ s.d.vol.lastCluster, x ≠ c → rawEntry d₂ x = rawEntry s.d x := by
        intro x hx hne
        rw [hothers₂ x (by rw [hvol₁]; exact hx) hne, htable₁.entry x hx]
      have hlinkable : Linkable s₁.d c :=
        (htable₁.linkable hlast).mpr (linkable_of_unused hunused)
      have hnext : fatNext d₂ c = e := hlink hlinkable
      have hfree₂ : freeClusters d₂ = (freeClusters s.d).erase c := by
        ext x
        rw [Finset.mem_erase]
        by_cases hxc : x = c
        · subst hxc
          exact iff_of_false hused (fun hm => hm.1 rfl)
        · rw [mem_freeClusters_congr hvol₂ fun hx => hraw x hx hxc]
          exact ⟨fun hm => ⟨hxc, hm⟩, fun hm => hm.2⟩
      have hcard := Finset.card_erase_add_one hc
      rw [FileState.extendLoop, hfind]
      simp only [hput, ne_eq, not_true_eq_false, if_false, Option.some_or]
      by_cases hec : e = c
      · -- the cluster is linked to itself, and nothing is free any more
        have hsingle := hself hec
        have hnone : freeClusters d₂ = ∅ := by
          rw [hfree₂, hsingle, Finset.erase_singleton]
        have hone : (freeClusters s.d).card = 1 := by
          rw [hsingle, Finset.card_singleton]
        rw [hec]
        cases n with
        | zero =>
          obtain ⟨s', hend, hsync', hframe', hothers', heof⟩ := extendEnd_some
            (s := { s₁ with d := d₂ }) hsync₂ w₂ hmin (by rw [hvol₂]; exact hlast) 0 a
          refine ⟨.noError, s', [], hend, hsync', hframe.trans hframe', List.nodup_nil, by simp,
            ⟨rfl, heof⟩, ?_, by omega, fun _ => ⟨rfl, rfl⟩, by omega⟩
          intro x hx hne
          have hxc : x ≠ c := by simpa using hne
          rw [hothers' x (by rw [hvol₂]; exact hx) hxc]
          exact hraw x hx hxc
        | succ n =>
          rcases findUnused_behind (s := { s₁ with d := d₂ }) hsync₂ w₂ hmin
            (by rw [hvol₂]; exact hlast) with ⟨s₃, hfind₃, hsync₃, hframe₃, htable₃, -⟩ | ⟨x, s₃, -,
              -, -, -, hx, -⟩
          · have hvol₃ : s₃.d.vol = s.d.vol := htable₃.vol.trans hvol₂
            obtain ⟨s', hend, hsync', hframe', hothers', heof⟩ := extendEnd_some hsync₃
              (hframe₃.works w₂) hmin (by rw [hvol₃]; exact hlast) (n + 1) a
            rw [FileState.extendLoop, hfind₃]
            refine ⟨.diskFull, s', [], hend, hsync', (hframe.trans hframe₃).trans hframe',
              List.nodup_nil, by simp, ⟨rfl, heof⟩, ?_, by omega, by omega,
              fun _ => ⟨rfl, hone.symm⟩⟩
            intro x hx hne
            have hxc : x ≠ c := by simpa using hne
            rw [hothers' x (by rw [hvol₃]; exact hx) hxc, htable₃.entry x (by rw [hvol₂]; exact hx)]
            exact hraw x hx hxc
          · rw [hnone] at hx
            exact absurd hx (Finset.notMem_empty x)
      · have he₂ : e ∈ freeClusters d₂ := by
          rw [hfree₂, Finset.mem_erase]
          exact ⟨hec, he⟩
        obtain ⟨err, s', ext, hloop, hext⟩ := ih (s := { s₁ with d := d₂ }) (c := e) a hsync₂ w₂
          (by rw [hvol₂]; exact hcodes) he₂
        have x : Extended d₂ e n err s'.d ext := hext
        have hfree : ∀ y ∈ e :: ext, y ∈ freeClusters s.d ∧ y ≠ c := by
          intro y hy
          rcases List.mem_cons.mp hy with rfl | hy
          · exact ⟨he, hec⟩
          · have hmem := (x.free y hy).1
            rw [hfree₂, Finset.mem_erase] at hmem
            exact ⟨hmem.2, hmem.1⟩
        have hcout : c ∉ e :: ext := fun hm => (hfree c hm).2 rfl
        have hkeep : fatNext s'.d c = e := by
          rw [fatNext_congr x.frame.vol (x.others c (by rw [hvol₂]; exact hlast) hcout)]
          exact hnext
        have hcount : (freeClusters d₂).card + 1 = (freeClusters s.d).card := by
          rw [hfree₂]
          exact hcard
        refine ⟨err, s', e :: ext, hloop, x.sync, hframe.trans x.frame, ?_, hfree, ?_, ?_, ?_, ?_, ?_⟩
        · rw [List.nodup_cons]
          exact ⟨fun hm => (x.free e hm).2 rfl, x.nodup⟩
        · rw [PointerList.linked_cons, hkeep]
          exact ⟨rfl, x.links⟩
        · intro y hy hne
          have hyc : y ≠ c := fun heq => hne (heq ▸ List.mem_cons_self)
          rw [x.others y (by rw [hvol₂]; exact hy) fun hm => hne (List.mem_cons_of_mem _ hm)]
          exact hraw y hy hyc
        · intro hlt
          obtain ⟨herr, hlen⟩ := x.fewer (by omega)
          exact ⟨herr, by rw [List.length_cons, hlen]⟩
        · intro heq
          obtain ⟨herr, hlen⟩ := x.last (by omega)
          exact ⟨herr, by rw [List.length_cons, hlen]⟩
        · intro hgt
          obtain ⟨herr, hlen⟩ := x.more (by omega)
          exact ⟨herr, by rw [List.length_cons, hlen, hcount]⟩

/-! ## Exact extension -/

/-- The chain `cl` at `c` has grown by `n` clusters that were free, or the disk is full; other
clusters in use keep their entries. -/
structure ExtendsExactly (d : Drive) (c n : ℕ) (cl : List ℕ) (err : MfsError) (d' : Drive) :
    Prop where
  grown : n ≤ (freeClusters d).card → err = .noError ∧ ∃ ext : List ℕ, ext.length = n ∧
    ext.Nodup ∧ (∀ e ∈ ext, e ∈ freeClusters d) ∧ ChainAt d' c (cl ++ ext)
  full : (freeClusters d).card < n → err = .diskFull ∧ ∃ ext : List ℕ,
    (∀ e ∈ ext, e ∈ freeClusters d) ∧ ChainAt d' c (cl ++ ext)
  others : ∀ e ≤ d.vol.lastCluster, e ∉ cl → e ∉ freeClusters d → rawEntry d' e = rawEntry d e

/-- What the function makes of a chain: nothing, if nothing is asked for or free, or a second
chain, linked to the first one if its last entry has no reserved bit. -/
theorem mfsExtendChain_cases (h : s.d.InSync) (w : s.d.Works)
    (hcodes : s.d.vol.lastCluster < (clusterMax s.d.vol.fatType).toNat) {pre : List ℕ} {t : ℕ}
    (hc : ChainAt s.d c (pre ++ [t])) (n : ℕ) :
    (n = 0 ∧ s.mfsExtendChain c n = (.noError, none, s)) ∨
    (∃ s', s.mfsExtendChain c n = (.diskFull, none, s') ∧ SameTable s.d s'.d ∧ 0 < n ∧
      freeClusters s.d = ∅) ∨
    ∃ err s' e ext, s.mfsExtendChain c n = (err, some e, s') ∧ 0 < n ∧ s'.d.vol = s.d.vol ∧
      (e :: ext).Nodup ∧ (∀ x ∈ e :: ext, x ∈ freeClusters s.d) ∧
      PointerList.Linked (fatNext s'.d) e (e :: ext) eofCluster ∧
      (∀ x ≤ s.d.vol.lastCluster, x ≠ t → x ∉ e :: ext → rawEntry s'.d x = rawEntry s.d x) ∧
      (Linkable s.d t → fatNext s'.d t = e) ∧ (¬Linkable s.d t → fatNext s'.d t = eofCluster) ∧
      (n ≤ (freeClusters s.d).card → err = .noError ∧ (e :: ext).length = n) ∧
      (n = (freeClusters s.d).card + 1 → err = .noError) ∧
      ((freeClusters s.d).card + 1 < n → err = .diskFull) := by
  have hhead := hc.range c hc.start
  have htail := hc.range t (by simp)
  rw [FileState.mfsExtendChain, if_neg (by simp [w.writable]), if_neg (by omega)]
  cases n with
  | zero => exact Or.inl ⟨rfl, if_pos rfl⟩
  | succ n =>
    right
    rw [if_neg (Nat.succ_ne_zero n)]
    have hlen := hc.length_le h.vol
    rw [List.length_append, List.length_singleton] at hlen
    obtain ⟨d₁, hend, hsync₁, hframe₁, htable₁⟩ := chainEnd_chain (eofCluster_gt h.vol) pre h w rfl
      t hc.links hc.range (by omega : pre.length < s.d.vol.lastCluster)
    simp only [hend, ne_eq, not_true_eq_false, if_false]
    have w₁ := hframe₁.works w
    have hvol₁ : d₁.vol = s.d.vol := htable₁.vol
    rcases findUnused_behind (s := { s with d := d₁ }) hsync₁ w₁ htail.1
        (by rw [hvol₁]; exact htail.2) with ⟨s₂, hfind, -, -, htable₂, hnone⟩ | ⟨e, s₂, hfind,
          hsync₂, hframe₂, htable₂, he, -⟩
    · left
      rw [FileState.extendLoop, hfind]
      refine ⟨s₂, rfl, htable₁.trans htable₂, Nat.succ_pos n, ?_⟩
      rw [← htable₁.freeClusters]
      exact hnone
    · right
      have htable : SameTable s.d s₂.d := htable₁.trans htable₂
      have w₂ := hframe₂.works w₁
      have hvol₂ := htable.vol
      have he' : e ∈ freeClusters s.d := by
        rw [← htable₁.freeClusters]
        exact he
      obtain ⟨hemin, helast, hefree⟩ := mem_freeClusters.mp he'
      have het : e ≠ t := fun heq => hc.not_free (e := t) (by simp) (heq ▸ he')
      obtain ⟨d₃, hput, hsync₃, hframe₃, hothers₃, hlink₃, hiff₃, hused₃⟩ := mfsPutFat_link hsync₂ w₂
        (by rw [hvol₂]; exact hcodes) htail.1 (by rw [hvol₂]; exact htail.2) hemin
        (by rw [hvol₂]; exact helast)
      have hvol₃ : d₃.vol = s.d.vol := hframe₃.vol.trans hvol₂
      have hraw₃ : ∀ x ≤ s.d.vol.lastCluster, x ≠ t → rawEntry d₃ x = rawEntry s.d x := by
        intro x hx hne
        rw [hothers₃ x (by rw [hvol₂]; exact hx) hne, htable.entry x hx]
      have hfree₃ : freeClusters d₃ = freeClusters s.d := by
        ext x
        by_cases hxt : x = t
        · subst hxt
          exact iff_of_false hused₃ (hc.not_free (by simp))
        · exact mem_freeClusters_congr hvol₃ fun hx => hraw₃ x hx hxt
      obtain ⟨err, s', ext, hloop, hext⟩ := extendLoop_spec n (s := { s₂ with d := d₃ }) e hsync₃
        (hframe₃.works w₂) (by rw [hvol₃]; exact hcodes) (by rw [hfree₃]; exact he')
      have x : Extended d₃ e n err s'.d ext := hext
      have hfree : ∀ y ∈ e :: ext, y ∈ freeClusters s.d := by
        intro y hy
        rcases List.mem_cons.mp hy with rfl | hy
        · exact he'
        · rw [← hfree₃]
          exact (x.free y hy).1
      have htout : t ∉ e :: ext := fun hm => hc.not_free (e := t) (by simp) (hfree t hm)
      have hkeep : rawEntry s'.d t = rawEntry d₃ t :=
        x.others t (by rw [hvol₃]; exact htail.2) htout
      have hlinkable : Linkable s'.d t ↔ Linkable s.d t := by
        rw [Linkable, hkeep, x.frame.vol, ← htable.linkable htail.2, ← hiff₃, Linkable]
      have hmore := x.more
      have hlast := x.last
      have hfewer := x.fewer
      rw [hfree₃] at hmore hlast hfewer
      refine ⟨err, s', e, ext, ?_, Nat.succ_pos n, x.frame.vol.trans hvol₃, ?_, hfree, x.links, ?_,
        ?_, fun hnot => fatNext_of_reserved (fun hl => hnot (hlinkable.mp hl)), ?_, ?_, ?_⟩
      · rw [FileState.extendLoop, hfind]
        simp only [hput, ne_eq, not_true_eq_false, if_false, Option.none_or]
        exact hloop
      · rw [List.nodup_cons]
        exact ⟨fun hm => (x.free e hm).2 rfl, x.nodup⟩
      · intro y hy hyt hyout
        rw [x.others y (by rw [hvol₃]; exact hy) hyout]
        exact hraw₃ y hy hyt
      · intro hl
        rw [fatNext_congr x.frame.vol hkeep]
        exact hlink₃ ((htable.linkable htail.2).mpr hl)
      · intro hle
        obtain ⟨herr, hlen⟩ := hfewer (by omega)
        exact ⟨herr, by rw [List.length_cons, hlen]⟩
      · intro heq
        exact (hlast (by omega)).1
      · intro hlt
        exact (hmore (by omega)).1

/-- A chain grows by exactly the clusters asked for, or the disk is full, exactly when the drive
can be written, and nothing is asked for or free, or the request is not for one cluster more than
are free and, if it can be served, the last entry of the chain has no reserved bit. -/
theorem extend_chain_exact {s : FileState} {c : ℕ} {cl : List ℕ} (h : s.d.InSync)
    (hfault : ∀ k, s.d.ioFault k = none) (hdev : s.d.vol.fatEnd ≤ s.d.vol.megaSectors + 1)
    (hcodes : s.d.vol.lastCluster < (clusterMax s.d.vol.fatType).toNat) (hc : ChainAt s.d c cl)
    (n : ℕ) :
    ExtendsExactly s.d c n cl (s.mfsExtendChain c n).1 (s.mfsExtendChain c n).2.2.d ↔
      s.d.vol.readOnly = false ∧ (n = 0 ∨ (freeClusters s.d).card = 0 ∨
        (freeClusters s.d).card + 1 < n ∨
        n ≤ (freeClusters s.d).card ∧ Linkable s.d (cl.getLastD 0)) := by
  by_cases hro : s.d.vol.readOnly = true
  · have hres : s.mfsExtendChain c n = (.diskIsWriteProtected, none, s) := by
      rw [FileState.mfsExtendChain, if_pos hro]
    rw [hres]
    refine iff_of_false (fun x => ?_) (fun hcond => absurd (hro.symm.trans hcond.1) (by decide))
    rcases Nat.lt_or_ge (freeClusters s.d).card n with hlt | hge
    · exact nomatch (x.full hlt).1
    · exact nomatch (x.grown hge).1
  · have hro' : s.d.vol.readOnly = false := by simpa using hro
    have w : s.d.Works := ⟨hro', hfault, hdev⟩
    obtain ⟨pre, t, rfl⟩ : ∃ pre t, cl = pre ++ [t] := by
      refine ⟨cl.dropLast, cl.getLast (List.ne_nil_of_mem hc.start), ?_⟩
      exact (List.dropLast_append_getLast _).symm
    rw [List.getLastD_concat]
    rcases mfsExtendChain_cases h w hcodes hc n with ⟨rfl, hres⟩ | ⟨s', hres, htable, hpos, hnone⟩ |
      ⟨err, s', e, ext, hres, hpos, hvol, hnodup, hfree, hlinks, hothers, hlink, hcut, hfew, hone,
        hmany⟩
    · rw [hres]
      refine iff_of_true ⟨fun _ => ⟨rfl, [], rfl, List.nodup_nil, by simp, ?_⟩, by omega,
        fun _ _ _ _ => rfl⟩ ⟨hro', Or.inl rfl⟩
      rw [List.append_nil]
      exact hc
    · have hzero : (freeClusters s.d).card = 0 := by rw [hnone, Finset.card_empty]
      rw [hres]
      refine iff_of_true ⟨by omega, fun _ => ⟨rfl, [], by simp, ?_⟩,
        fun x hx _ _ => htable.entry x hx⟩ ⟨hro', Or.inr (Or.inl hzero)⟩
      rw [List.append_nil]
      exact hc.sameTable htable
    · have hcard : 0 < (freeClusters s.d).card :=
        Finset.card_pos.mpr ⟨e, hfree e List.mem_cons_self⟩
      have hrest : ∀ x ≤ s.d.vol.lastCluster, x ∉ pre ++ [t] → x ∉ freeClusters s.d →
          rawEntry s'.d x = rawEntry s.d x := by
        intro x hx hxcl hxfree
        exact hothers x hx (fun heq => hxcl (by simp [heq])) fun hm => hxfree (hfree x hm)
      have hpre := hc.prefix_linked hvol h.vol fun x hx hxt hxfree =>
        hothers x hx hxt fun hm => hxfree (hfree x hm)
      rw [hres]
      by_cases hl : Linkable s.d t
      · have hchain := hc.linked_behind hvol hpre (hlink hl) hlinks fun x hx =>
          ⟨(mem_freeClusters.mp (hfree x hx)).1, (mem_freeClusters.mp (hfree x hx)).2.1⟩
        constructor
        · intro x
          refine ⟨hro', ?_⟩
          by_contra hcond
          have heq : n = (freeClusters s.d).card + 1 := by
            by_contra hne
            rcases Nat.lt_or_gt_of_ne hne with hlt | hgt
            · exact hcond (Or.inr (Or.inr (Or.inr ⟨by omega, hl⟩)))
            · exact hcond (Or.inr (Or.inr (Or.inl hgt)))
          have herr := (x.full (by omega)).1
          rw [hone heq] at herr
          exact nomatch herr
        · rintro ⟨-, hcond⟩
          refine ⟨fun hle => ?_, fun hlt => ?_, hrest⟩
          · obtain ⟨herr, hlen⟩ := hfew hle
            exact ⟨herr, e :: ext, hlen, hnodup, hfree, hchain⟩
          · exact ⟨hmany (by omega), e :: ext, hfree, hchain⟩
      · have hchain := hc.cut_behind hvol hpre (hcut hl)
        constructor
        · intro x
          refine ⟨hro', ?_⟩
          by_contra hcond
          rcases Nat.lt_or_ge (freeClusters s.d).card n with hlt | hge
          · have herr := (x.full hlt).1
            rw [hone (by omega)] at herr
            exact nomatch herr
          · -- the chain is what it was
            obtain ⟨-, ext', hlen, -, -, hlong⟩ := x.grown hge
            have hok : s'.d.vol.Ok := by rw [hvol]; exact h.vol
            have hsame := hlong.links.unique hchain.links (hlong.eof_notMem hok)
              (hchain.eof_notMem hok)
            have hlength := congrArg List.length hsame
            rw [List.length_append] at hlength
            omega
        · rintro ⟨-, hcond⟩
          refine ⟨fun hle => ?_, fun hlt => ?_, hrest⟩
          · rcases hcond with hzero | hzero | hlt | ⟨-, hlink'⟩
            · omega
            · omega
            · omega
            · exact absurd hlink' hl
          · refine ⟨hmany (by omega), [], by simp, ?_⟩
            rw [List.append_nil]
            exact hchain

/-- A FAT12 drive of the clusters 2 to 4, of which the first is a chain and the others are free. -/
def shortDrive : Drive :=
  { filledDrive .fat12 2 3 0 with
    fatCache := fun o => if o = 3 then 0xFF else if o = 4 then 0x0F else 0
    device := fun s o => if s = 1 ∧ o = 3 then 0xFF else if s = 1 ∧ o = 4 then 0x0F else 0 }

theorem shortDrive_inSync : shortDrive.InSync := by
  have hok : (filledDrive .fat12 2 3 0).vol.Ok :=
    (filledDrive_inSync .fat12 0 (by decide) (by decide) (by decide) (by decide)).vol
  refine ⟨hok, Or.inr (by decide), fun hd => absurd hd (by decide), fun _ _ k hk o ho => ?_⟩
  have hk' : k < 2 := hk
  have ho' : o < 512 := ho
  simp only [shortDrive, filledDrive]
  rcases Nat.lt_or_ge k 1 with h0 | h1
  · obtain rfl : k = 0 := by omega
    simp
  · obtain rfl : k = 1 := by omega
    rw [if_neg (by omega), if_neg (by omega), if_neg (by omega), if_neg (by omega)]

theorem shortDrive_chain : ChainAt shortDrive 2 [2] :=
  ⟨⟨rfl, (by decide : fatNext shortDrive 2 = eofCluster)⟩, by decide, by decide⟩

/-- Both free clusters are asked for. -/
theorem extend_chain_exact_two : (freeClusters shortDrive).card = 2 ∧
    ExtendsExactly shortDrive 2 2 [2] ((noFile shortDrive).mfsExtendChain 2 2).1
      ((noFile shortDrive).mfsExtendChain 2 2).2.2.d := by
  have hcard : (freeClusters shortDrive).card = 2 := by decide
  refine ⟨hcard, (extend_chain_exact (s := noFile shortDrive) shortDrive_inSync (fun _ => rfl)
    (by decide) (by decide) shortDrive_chain 2).mpr ⟨rfl, Or.inr (Or.inr (Or.inr ⟨?_, ?_⟩))⟩⟩
  · exact hcard.ge
  · decide

/-- A third cluster is asked for: the call returns without an error, and the chain ends with the
second one. -/
theorem extend_chain_one_short : shortDrive.InSync ∧ shortDrive.Works ∧
    ChainAt shortDrive 2 [2] ∧ (freeClusters shortDrive).card = 2 ∧
    ((noFile shortDrive).mfsExtendChain 2 3).1 = .noError ∧
    ChainAt ((noFile shortDrive).mfsExtendChain 2 3).2.2.d 2 [2, 3, 4] :=
  ⟨shortDrive_inSync, ⟨rfl, fun _ => rfl, by decide⟩, shortDrive_chain, by decide, by decide,
    ⟨by simp only [PointerList.linked_cons, PointerList.linked_nil]; decide, by decide,
      by decide⟩⟩

end Mqx.Mfs
