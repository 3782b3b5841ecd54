import Mathlib.Order.Interval.Finset.Nat
import Mqx.Mfs.FileChain

/-!
# Steps along a file

The step to the next sector, adding a cluster at the end of the chain, and seeking: where
the handle stands afterwards.
-/

namespace Mqx.Mfs

variable {s s' : FileState} {d : Drive} {cl : List ℕ} {k : ℕ}

theorem FileInv.onlyFat (f : FileInv s cl) (h : OnlyFat s s') (ht : SameTable s.d s'.d)
    (hfirst : s'.firstCluster = s.firstCluster) : FileInv s' cl := by
  refine ⟨h.driveInv f.drive, f.chain.sameTable ht, hfirst.trans f.first, ?_⟩
  intro c hmin hlast hfree r hr
  rw [h.layout] at hr
  rw [h.frame.vol] at hlast
  rw [ht.entryCode hlast] at hfree
  rw [h.number, h.clusterToSector]
  exact f.apart c hmin hlast hfree r hr

theorem Linked.onlyFat (f : Linked s cl) (h : OnlyFat s s') (ht : SameTable s.d s'.d)
    (hfirst : s'.firstCluster = s.firstCluster) : Linked s' cl :=
  ⟨h.sync, h.frame.works f.works, h.geometry f.geometry, f.chain.sameTable ht,
    hfirst.trans f.first⟩

theorem At.congr {j : ℕ} (a : At s cl k) (hl : s'.layout = s.layout) (hj : j = k)
    (hc : s'.currentCluster = s.currentCluster) (hp : s'.previousCluster = s.previousCluster) :
    At s' cl j := by
  subst hj
  refine ⟨?_, ?_, ?_⟩
  · rw [chainSectors, hl]
    exact a.le
  · rw [hc, hl]
    exact a.current
  · rw [hp, hl]
    exact a.previous

/-- The sector behind `k`, in the same cluster or in the next. -/
theorem succ_sector {spc : ℕ} (hpos : 0 < spc) (k : ℕ) :
    (k % spc + 1 < spc ∧ (k + 1) / spc = k / spc ∧ (k + 1) % spc = k % spc + 1) ∨
    (k % spc + 1 = spc ∧ (k + 1) / spc = k / spc + 1 ∧ (k + 1) % spc = 0) := by
  have hk := Nat.div_add_mod k spc
  have hlt := Nat.mod_lt k hpos
  by_cases h : k % spc + 1 < spc
  · left
    have hsum : k + 1 = spc * (k / spc) + (k % spc + 1) := by omega
    refine ⟨h, ?_, ?_⟩
    · rw [hsum, Nat.mul_add_div hpos, Nat.div_eq_of_lt h, Nat.add_zero]
    · rw [hsum, Nat.mul_add_mod, Nat.mod_eq_of_lt h]
  · right
    have heq : k % spc + 1 = spc := by omega
    have hsum : k + 1 = spc * (k / spc + 1) := by
      rw [Nat.mul_add, Nat.mul_one]
      omega
    refine ⟨heq, ?_, ?_⟩
    · rw [hsum, Nat.mul_div_cancel_left _ hpos]
    · rw [hsum, Nat.mul_mod_right]

theorem previousOf_succ (cl : List ℕ) (i : ℕ) : previousOf cl (i + 1) = cl.getD i 0 := by
  rw [previousOf, if_neg (Nat.succ_ne_zero i), Nat.add_sub_cancel]

theorem getD_default (h : k < cl.length) (e e' : ℕ) : cl.getD k e = cl.getD k e' := by
  rw [List.getD_eq_getElem cl e h, List.getD_eq_getElem cl e' h]

/-- The code of the last cluster is the chain end, and no other. -/
theorem entryCode_eq_eof (h : FatChain d cl) (hlast : d.vol.lastCluster < eofCluster) {i : ℕ}
    (hi : i < cl.length) : entryCode d (cl.getD i 0) = clusterEof ↔ i + 1 = cl.length := by
  have hnext := h.next i hi
  constructor
  · intro heof
    by_contra hne
    have hlt : i + 1 < cl.length := by omega
    have hr := (h.range _ (getD_mem hlt eofCluster)).2
    rw [← hnext, heof] at hr
    have hval : clusterEof.toNat = eofCluster := by decide
    omega
  · intro heq
    rw [List.getD_eq_default cl eofCluster heq.ge] at hnext
    exact BitVec.eq_of_toNat_eq hnext

theorem Geometry.last_lt (g : Geometry s) : s.d.vol.lastCluster < eofCluster := by
  have hcodes := g.codes
  have hmax : (clusterMax s.d.vol.fatType).toNat ≤ eofCluster := by
    cases s.d.vol.fatType <;> decide
  omega

/-! ## The next sector -/

theorem nextDataSector_spec (f : Linked s cl) (a : At s cl k) (hk : k < chainSectors s cl)
    (number : ℕ) :
    ∃ e idx num s', s.mfsNextDataSector (k % s.layout.sectorsPerCluster) number =
        (e, idx, num, s') ∧ OnlyFat s s' ∧ SameTable s.d s'.d ∧
      s'.firstCluster = s.firstCluster ∧ s'.full = s.full ∧ At s' cl (k + 1) ∧
      (k + 1 < chainSectors s cl → e = .noError ∧
        idx = (k + 1) % s.layout.sectorsPerCluster ∧ num = fileSector s cl (k + 1)) ∧
      (k + 1 = chainSectors s cl → e = .eof) := by
  have g := f.geometry
  have hidx := cluster_index_lt hk
  have hcur : s.currentCluster = cl.getD (k / s.layout.sectorsPerCluster) 0 := by
    rw [a.current]
    exact getD_default hidx _ _
  have hne : s.currentCluster ≠ eofCluster := by
    intro heof
    exact absurd ((a.lt_of_ne (fun c hc => (f.chain.range c hc).2) g).mp heof) (Nat.ne_of_lt hk)
  unfold FileState.mfsNextDataSector
  rw [if_pos hne]
  rcases succ_sector g.spc_pos k with ⟨hlt, hdiv, hmod⟩ | ⟨heq, hdiv, hmod⟩
  · rw [if_neg (by omega)]
    have hsucc : k + 1 < chainSectors s cl := by
      have hmul := Nat.mul_le_mul_right s.layout.sectorsPerCluster hidx
      have hk' := Nat.div_add_mod k s.layout.sectorsPerCluster
      rw [Nat.succ_mul, Nat.mul_comm (k / _)] at hmul
      rw [chainSectors]
      omega
    refine ⟨_, _, _, _, rfl, ⟨rfl, rfl, rfl, rfl, rfl, rfl, rfl, f.sync, FatFrame.refl _⟩,
      SameTable.refl _, rfl, rfl, ⟨hsucc.le, ?_, ?_⟩, ?_, ?_⟩
    · rw [hdiv]
      exact a.current
    · rw [hdiv]
      exact a.previous
    · intro _
      refine ⟨rfl, hmod.symm, ?_⟩
      rw [fileSector, hdiv, hmod, hcur]
    · intro hend
      omega
  · rw [if_pos (by omega)]
    have hr := f.chain.range _ (getD_mem hidx 0)
    obtain ⟨d', hget, hsync, hframe, htable⟩ := mfsGetClusterFromFat_works f.sync
      f.works.reads hr.1 hr.2
    simp only [hcur, hget, if_true]
    have hnext := f.chain.next _ hidx
    have heof := entryCode_eq_eof f.chain g.last_lt hidx
    have hle : k + 1 ≤ chainSectors s cl := hk
    have hat : ∀ s₁ : FileState, s₁.layout = s.layout →
        s₁.currentCluster = (entryCode s.d (cl.getD (k / s.layout.sectorsPerCluster) 0)).toNat →
        s₁.previousCluster = cl.getD (k / s.layout.sectorsPerCluster) 0 → At s₁ cl (k + 1) := by
      intro s₁ hl hc hp
      refine ⟨?_, ?_, ?_⟩
      · rw [chainSectors, hl]
        exact hle
      · rw [hc, hl, hdiv, hnext]
      · rw [hp, hl, hdiv, previousOf_succ]
    split
    · next hend =>
      refine ⟨_, _, _, _, rfl, ⟨rfl, rfl, rfl, rfl, rfl, rfl, rfl, hsync, hframe⟩, htable, rfl,
        rfl, hat _ rfl rfl rfl, ?_, fun _ => rfl⟩
      intro hlt
      have hidx' := cluster_index_lt hlt
      rw [hdiv] at hidx'
      exact absurd (heof.mp hend) (Nat.ne_of_lt hidx')
    · next hend =>
      refine ⟨_, _, _, _, rfl, ⟨rfl, rfl, rfl, rfl, rfl, rfl, rfl, hsync, hframe⟩, htable, rfl,
        rfl, hat _ rfl rfl rfl, ?_, ?_⟩
      · intro hlt
        refine ⟨rfl, hmod.symm, ?_⟩
        rw [hnext, fileSector, hdiv, hmod, Nat.add_zero]
        have hidx' := cluster_index_lt hlt
        rw [hdiv] at hidx'
        rw [getD_default hidx' eofCluster 0]
        rfl
      · intro hsucc
        exfalso
        apply hend
        apply heof.mpr
        have hmul := congrArg (· / s.layout.sectorsPerCluster) hsucc
        simp only [chainSectors, Nat.mul_div_cancel _ g.spc_pos] at hmul
        rw [← hdiv]
        exact hmul

/-! ## Free clusters -/

/-- A cluster outside the drive is refused. -/
theorem mfsGetClusterFromFat_refused {c : ℕ} (h : ¬(clusterMinGood ≤ c ∧ c ≤ d.vol.lastCluster)) :
    (mfsGetClusterFromFat d c).1 ≠ .noError ∧ (mfsGetClusterFromFat d c).2.2 = d := by
  unfold mfsGetClusterFromFat
  split
  · exact ⟨(fun he => nomatch he), rfl⟩
  · rw [if_pos (by omega)]
    exact ⟨(fun he => nomatch he), rfl⟩

/-- A search finds a free cluster or nothing, and leaves the table as it was. -/
theorem searchUnused_spec (n : ℕ) : ∀ {c : ℕ} {d : Drive}, d.InSync → d.Works →
    (searchUnused n c d).2.InSync ∧ FatFrame d (searchUnused n c d).2 ∧
      SameTable d (searchUnused n c d).2 ∧
      ∀ c', (searchUnused n c d).1 = .found c' → clusterMinGood ≤ c' ∧
        c' ≤ d.vol.lastCluster ∧ entryCode d c' = clusterUnused := by
  induction n with
  | zero =>
    intro c d h _
    exact ⟨h, FatFrame.refl d, SameTable.refl d, fun c' hc => nomatch hc⟩
  | succ n ih =>
    intro c d h w
    unfold searchUnused
    simp only
    by_cases hc : clusterMinGood ≤ c ∧ c ≤ d.vol.lastCluster
    · obtain ⟨d', hget, hsync, hframe, htable⟩ := mfsGetClusterFromFat_works h w.reads hc.1 hc.2
      rw [hget]
      simp only [ne_eq, not_true_eq_false, if_false]
      split
      · next hfree =>
        refine ⟨hsync, hframe, htable, fun c' hc' => ?_⟩
        have heq : c = c' := by injection hc'
        subst heq
        exact ⟨hc.1, hc.2, hfree⟩
      · obtain ⟨hsync', hframe', htable', hfound⟩ := ih (c := c + 1) hsync (hframe.works w)
        refine ⟨hsync', hframe.trans hframe', htable.trans htable', fun c' hc' => ?_⟩
        obtain ⟨hmin, hlast, hfree⟩ := hfound c' hc'
        rw [htable.vol] at hlast
        rw [htable.entryCode hlast] at hfree
        exact ⟨hmin, hlast, hfree⟩
    · obtain ⟨herr, hsame⟩ := mfsGetClusterFromFat_refused hc
      rw [if_pos herr, hsame]
      exact ⟨h, FatFrame.refl d, SameTable.refl d, fun c' hc' => nomatch hc'⟩

/-- A search over clusters of the drive passes only clusters that are in use. -/
theorem searchUnused_passed (n : ℕ) : ∀ {c : ℕ} {d : Drive}, d.InSync → d.Works →
    clusterMinGood ≤ c → (∀ c', (searchUnused n c d).1 ≠ .found c') →
    ∀ e, c ≤ e → e < c + n → e ≤ d.vol.lastCluster → entryCode d e ≠ clusterUnused := by
  induction n with
  | zero =>
    intro c d _ _ _ _ e hle hlt _
    omega
  | succ n ih =>
    intro c d h w hmin hnone e hle hlt hlast
    obtain ⟨d', hget, hsync, hframe, htable⟩ := mfsGetClusterFromFat_works h w.reads hmin (hle.trans hlast)
    unfold searchUnused at hnone
    simp only [hget, ne_eq, not_true_eq_false, if_false] at hnone
    split at hnone
    · exact absurd rfl (hnone c)
    · next hused =>
      rcases Nat.eq_or_lt_of_le hle with heq | hgt
      · rw [← heq]
        exact hused
      · rw [← htable.entryCode hlast]
        exact ih hsync (hframe.works w) (by omega) hnone e hgt (by omega)
          (by rw [htable.vol]; exact hlast)

theorem searchUnused_not_failed (n : ℕ) : ∀ {c : ℕ} {d : Drive}, d.InSync → d.Works →
    clusterMinGood ≤ c → c + n ≤ d.vol.lastCluster + 1 → (searchUnused n c d).1 ≠ .failed := by
  induction n with
  | zero =>
    intro c d _ _ _ _ hfail
    cases hfail
  | succ n ih =>
    intro c d h w hmin hle
    obtain ⟨d', hget, hsync, hframe, htable⟩ := mfsGetClusterFromFat_works h w.reads hmin (by omega)
    unfold searchUnused
    simp only [hget, ne_eq, not_true_eq_false, if_false]
    split
    · exact fun hfail => nomatch hfail
    · exact ih hsync (hframe.works w) (by omega) (by rw [htable.vol]; omega)

/-- Either the disk is full, or a free cluster is found. -/
theorem findUnused_spec (hs : s.d.InSync) (w : s.d.Works) (c : ℕ) :
    (∃ d', s.mfsFindUnusedClusterFrom c = (none, { s with d := d', full := true }) ∧
      d'.InSync ∧ FatFrame s.d d' ∧ SameTable s.d d' ∧
      (clusterMinGood ≤ c → ∀ e, clusterMinGood ≤ e → e ≤ s.d.vol.lastCluster →
        entryCode s.d e ≠ clusterUnused)) ∨
    ∃ c' d', s.mfsFindUnusedClusterFrom c = (some c', { s with d := d', nextFreeCluster := c' }) ∧
      d'.InSync ∧ FatFrame s.d d' ∧ SameTable s.d d' ∧ clusterMinGood ≤ c' ∧
      c' ≤ s.d.vol.lastCluster ∧ entryCode s.d c' = clusterUnused := by
  unfold FileState.mfsFindUnusedClusterFrom
  rw [if_neg (by simp [w.writable])]
  obtain ⟨hsync, hframe, htable, hfound⟩ :=
    searchUnused_spec (s.d.vol.lastCluster + 1 - c) (c := c) hs w
  simp only
  split
  · next c' hc' =>
    exact Or.inr ⟨c', _, rfl, hsync, hframe, htable, hfound c' hc'⟩
  · next hfail =>
    refine Or.inl ⟨_, rfl, hsync, hframe, htable, fun hmin => ?_⟩
    intro e he hle
    by_cases hlast : c ≤ s.d.vol.lastCluster
    · exact absurd hfail (searchUnused_not_failed _ hs w hmin (by omega))
    · rw [show s.d.vol.lastCluster + 1 - c = 0 by omega] at hfail
      cases hfail
  · next hnone =>
    obtain ⟨hsync', hframe', htable', hfound'⟩ := searchUnused_spec (c - clusterMinGood)
      (c := clusterMinGood) hsync (hframe.works w)
    split
    · next c' hc' =>
      obtain ⟨hmin, hlast, hfree⟩ := hfound' c' hc'
      rw [htable.vol] at hlast
      rw [htable.entryCode hlast] at hfree
      exact Or.inr ⟨c', _, rfl, hsync', hframe.trans hframe', htable.trans htable', hmin, hlast,
        hfree⟩
    · next hnone' =>
      refine Or.inl ⟨_, rfl, hsync', hframe.trans hframe', htable.trans htable', ?_⟩
      intro hmin e he hle
      rcases Nat.lt_or_ge e c with hlt | hge
      · rw [← htable.entryCode hle]
        exact searchUnused_passed _ hsync (hframe.works w) (le_refl _) hnone' e he (by omega)
          (by rw [htable.vol]; exact hle)
      · apply searchUnused_passed (s.d.vol.lastCluster + 1 - c) hs w hmin _ e hge (by omega) hle
        intro c' hc'
        rw [hc'] at hnone
        cases hnone

/-- A free entry has no reserved bit set. -/
theorem linkable_of_unused {c : ℕ} (h : entryCode d c = clusterUnused) : Linkable d c := by
  have hnat := congrArg BitVec.toNat h
  rw [entryCode, clusterNumber_toNat] at hnat
  have hmax : (clusterMax d.vol.fatType).toNat < 2 ^ 28 := by
    cases d.vol.fatType <;> decide
  have hzero : clusterUnused.toNat = 0 := by decide
  rw [hzero] at hnat
  rw [Linkable, rawEntry]
  split at hnat
  · exact absurd hnat (by decide)
  · next hlt =>
    rw [Nat.mod_eq_of_lt (by omega)] at hnat
    rw [hnat, Nat.zero_div]

/-! ## A new cluster -/

theorem EntryPut.entryCode_of_ne {d d' : Drive} {e e' : ℕ} {code : BitVec 32}
    (h : EntryPut d e code d') (he' : e' ≤ d.vol.lastCluster) (hne : e' ≠ e) :
    entryCode d' e' = entryCode d e' := by
  have hraw := h.others e' he' hne
  rw [rawEntry, rawEntry, h.vol] at hraw
  rw [entryCode, entryCode, h.vol, hraw]

theorem EntryPut.linkable_of_ne {d d' : Drive} {e e' : ℕ} {code : BitVec 32}
    (h : EntryPut d e code d') (he' : e' ≤ d.vol.lastCluster) (hne : e' ≠ e) :
    Linkable d' e' ↔ Linkable d e' := by
  rw [Linkable, Linkable, h.others e' he' hne, h.vol]

/-- The chain of one cluster. -/
theorem FatChain.single {d' : Drive} {c : ℕ} (hmin : clusterMinGood ≤ c)
    (hlast : c ≤ d.vol.lastCluster) (hfree : entryCode d c = clusterUnused)
    (p : EntryPut d c clusterEof d') : FatChain d' [c] := by
  refine ⟨List.nodup_singleton c, ?_, ?_, ?_⟩
  · intro c' hc'
    rw [List.mem_singleton.mp hc', p.vol]
    exact ⟨hmin, hlast⟩
  · intro i hi
    have hi0 : i = 0 := by simpa using hi
    subst hi0
    have hcode := p.code (Or.inl rfl)
    simp only [List.getD_cons_zero]
    rw [hcode]
    rfl
  · intro c' hc'
    rw [List.mem_singleton.mp hc']
    exact p.linkable.mpr (linkable_of_unused hfree)

/-- A free cluster is linked behind the last one. -/
theorem FatChain.concat {d₁ d₂ : Drive} (h : FatChain d cl) (hne : cl ≠ []) {c : ℕ}
    (hmin : clusterMinGood ≤ c) (hlast : c ≤ d.vol.lastCluster)
    (hfree : entryCode d c = clusterUnused) (hcode : BitVec.ofNat 32 c < clusterMax d.vol.fatType)
    (hlt : c < 2 ^ 32)
    (p : EntryPut d (cl.getD (cl.length - 1) 0) (BitVec.ofNat 32 c) d₁)
    (p' : EntryPut d₁ c clusterEof d₂) : FatChain d₂ (cl ++ [c]) := by
  have hpos := List.length_pos_of_ne_nil hne
  have hlastmem : cl.getD (cl.length - 1) 0 ∈ cl := getD_mem (by omega) 0
  have hnew : c ∉ cl := fun hc => h.not_unused hc hfree
  have hvol : d₂.vol = d.vol := p'.vol.trans p.vol
  have hother : ∀ c' ∈ cl, c' ≠ cl.getD (cl.length - 1) 0 → entryCode d₂ c' = entryCode d c' := by
    intro c' hc' hne'
    have hle := (h.range c' hc').2
    have hcc : c' ≠ c := fun heq => hnew (heq ▸ hc')
    rw [p'.entryCode_of_ne (by rw [p.vol]; exact hle) hcc, p.entryCode_of_ne hle hne']
  refine ⟨?_, ?_, ?_, ?_⟩
  · rw [List.nodup_append]
    refine ⟨h.nodup, List.nodup_singleton c, ?_⟩
    intro a ha b hb
    rw [List.mem_singleton.mp hb]
    exact fun heq => hnew (heq ▸ ha)
  · intro c' hc'
    rw [hvol]
    rcases List.mem_append.mp hc' with hc' | hc'
    · exact h.range c' hc'
    · rw [List.mem_singleton.mp hc']
      exact ⟨hmin, hlast⟩
  · intro i hi
    rw [List.length_append, List.length_singleton] at hi
    rcases lt_trichotomy (i + 1) cl.length with hlt' | heq | hgt
    · -- not the last one: its link is what it was
      rw [List.getD_append _ _ _ _ (by omega), List.getD_append _ _ _ _ hlt',
        hother _ (getD_mem (by omega) 0)]
      · exact h.next i (by omega)
      · intro hsame
        have hidx := getD_inj h.nodup (by omega) (by omega) hsame
        omega
    · have hii : i = cl.length - 1 := by omega
      have hget : (cl ++ [c]).getD (i + 1) eofCluster = c := by
        rw [List.getD_append_right _ _ _ _ (by omega), heq, Nat.sub_self]
        rfl
      rw [List.getD_append _ _ _ _ (by omega), hget, hii,
        p'.entryCode_of_ne (by rw [p.vol]; exact (h.range _ hlastmem).2)
          (fun heq' => hnew (heq' ▸ hlastmem)),
        p.code (Or.inr ⟨hcode, h.linkable _ hlastmem⟩), BitVec.toNat_ofNat,
        Nat.mod_eq_of_lt hlt]
    · have hii : i = cl.length := by omega
      subst hii
      rw [List.getD_append_right _ _ _ _ (le_refl _), Nat.sub_self,
        List.getD_append_right _ _ _ _ (by omega)]
      have hcode' := p'.code (Or.inl rfl)
      simp only [List.getD_cons_zero]
      rw [hcode', List.getD_eq_default _ _ (by simp)]
      rfl
  · intro c' hc'
    rcases List.mem_append.mp hc' with hc' | hc'
    · have hle := (h.range c' hc').2
      have hcc : c' ≠ c := fun heq => hnew (heq ▸ hc')
      rw [p'.linkable_of_ne (by rw [p.vol]; exact hle) hcc]
      by_cases heq : c' = cl.getD (cl.length - 1) 0
      · rw [heq, p.linkable]
        exact h.linkable _ hlastmem
      · rw [p.linkable_of_ne hle heq]
        exact h.linkable c' hc'
    · rw [List.mem_singleton.mp hc', p'.linkable, p.linkable_of_ne hlast]
      · exact linkable_of_unused hfree
      · exact fun heq => hnew (heq ▸ hlastmem)

theorem chainEnd_last (h : FatChain d cl) (hs : d.InSync) (w : d.Works)
    (hlast : d.vol.lastCluster < eofCluster) (hne : cl ≠ []) :
    ∃ d', chainEnd d.vol.lastCluster (cl.getD (cl.length - 1) 0) d =
        (.noError, cl.getD (cl.length - 1) 0, d') ∧ d'.InSync ∧ FatFrame d d' ∧
      SameTable d d' := by
  have hpos := List.length_pos_of_ne_nil hne
  have hidx : cl.length - 1 < cl.length := by omega
  have hr := h.range _ (getD_mem hidx 0)
  obtain ⟨d', hget, hsync, hframe, htable⟩ := mfsGetClusterFromFat_works hs w.reads hr.1 hr.2
  have heof := (entryCode_eq_eof h hlast hidx).mpr (by omega)
  rw [heof] at hget
  obtain ⟨n, hn⟩ : ∃ n, d.vol.lastCluster = n + 1 := by
    refine ⟨d.vol.lastCluster - 1, ?_⟩
    unfold clusterMinGood at hr
    omega
  refine ⟨d', ?_, hsync, hframe, htable⟩
  rw [hn, chainEnd]
  simp only [hget, ne_eq, not_true_eq_false, if_false, if_true]

/-- The new cluster as a code. -/
theorem Geometry.code_lt (g : Geometry s) {c : ℕ} (hc : c ≤ s.d.vol.lastCluster) :
    BitVec.ofNat 32 c < clusterMax s.d.vol.fatType ∧ c < 2 ^ 32 := by
  have hcodes := g.codes
  have hmax : (clusterMax s.d.vol.fatType).toNat < 2 ^ 32 := (clusterMax _).isLt
  have hlt : c < 2 ^ 32 := by omega
  refine ⟨?_, hlt⟩
  rw [BitVec.lt_def, BitVec.toNat_ofNat, Nat.mod_eq_of_lt hlt]
  omega

/-- The free clusters of the drive. -/
def freeClusters (d : Drive) : Finset ℕ :=
  (Finset.Icc clusterMinGood d.vol.lastCluster).filter fun c => entryCode d c = clusterUnused

theorem mem_freeClusters {c : ℕ} : c ∈ freeClusters d ↔
    clusterMinGood ≤ c ∧ c ≤ d.vol.lastCluster ∧ entryCode d c = clusterUnused := by
  rw [freeClusters, Finset.mem_filter, Finset.mem_Icc, and_assoc]

theorem SameTable.freeClusters {d d' : Drive} (h : SameTable d d') :
    freeClusters d' = freeClusters d := by
  ext c
  rw [mem_freeClusters, mem_freeClusters, h.vol]
  constructor
  · rintro ⟨hmin, hlast, hfree⟩
    exact ⟨hmin, hlast, by rw [← h.entryCode hlast]; exact hfree⟩
  · rintro ⟨hmin, hlast, hfree⟩
    exact ⟨hmin, hlast, by rw [h.entryCode hlast]; exact hfree⟩

/-- A chain end is put into a free entry. -/
theorem EntryPut.freeClusters_eof {d d' : Drive} {c : ℕ} (p : EntryPut d c clusterEof d') :
    freeClusters d' = (freeClusters d).erase c := by
  ext e
  rw [Finset.mem_erase, mem_freeClusters, mem_freeClusters, p.vol]
  constructor
  · rintro ⟨hmin, hlast, hfree⟩
    have hne : e ≠ c := by
      rintro rfl
      rw [p.code (Or.inl rfl)] at hfree
      exact absurd hfree (by decide)
    exact ⟨hne, hmin, hlast, by rw [← p.entryCode_of_ne hlast hne]; exact hfree⟩
  · rintro ⟨hne, hmin, hlast, hfree⟩
    exact ⟨hmin, hlast, by rw [p.entryCode_of_ne hlast hne]; exact hfree⟩

/-- A link is put into an entry that was in use. -/
theorem EntryPut.freeClusters_link {d d' : Drive} {e c : ℕ}
    (p : EntryPut d e (BitVec.ofNat 32 c) d') (hmin : clusterMinGood ≤ c)
    (hcode : BitVec.ofNat 32 c < clusterMax d.vol.fatType) (hlt : c < 2 ^ 32)
    (hlink : Linkable d e) (hused : entryCode d e ≠ clusterUnused) :
    freeClusters d' = freeClusters d := by
  have hnew : entryCode d' e ≠ clusterUnused := by
    rw [p.code (Or.inr ⟨hcode, hlink⟩)]
    intro hzero
    have hnat := congrArg BitVec.toNat hzero
    rw [BitVec.toNat_ofNat, Nat.mod_eq_of_lt hlt] at hnat
    have hunused : clusterUnused.toNat = 0 := by decide
    unfold clusterMinGood at hmin
    omega
  ext a
  rw [mem_freeClusters, mem_freeClusters, p.vol]
  by_cases hae : a = e
  · subst hae
    exact ⟨fun h => absurd h.2.2 hnew, fun h => absurd h.2.2 hused⟩
  · constructor
    · rintro ⟨hm, hlast, hfree⟩
      exact ⟨hm, hlast, by rw [← p.entryCode_of_ne hlast hae]; exact hfree⟩
    · rintro ⟨hm, hlast, hfree⟩
      exact ⟨hm, hlast, by rw [p.entryCode_of_ne hlast hae]; exact hfree⟩

/-- Either no cluster is free, or one that was free is added. -/
theorem addCluster_cases (f : Linked s cl) (hne : cl ≠ []) :
    (∃ d', s.mfsAddClusterToChain (cl.getD (cl.length - 1) 0) =
        (.diskFull, { s with d := d', full := true }) ∧
      d'.InSync ∧ FatFrame s.d d' ∧ SameTable s.d d' ∧ freeClusters s.d = ∅) ∨
    ∃ c d', s.mfsAddClusterToChain (cl.getD (cl.length - 1) 0) =
        (.noError, { s with d := d', nextFreeCluster := c, currentCluster := c }) ∧
      d'.InSync ∧ FatFrame s.d d' ∧ FatChain d' (cl ++ [c]) ∧ c ∈ freeClusters s.d ∧
      freeClusters d' = (freeClusters s.d).erase c := by
  have g := f.geometry
  have hpos := List.length_pos_of_ne_nil hne
  have hidx : cl.length - 1 < cl.length := by omega
  have hlastmem := getD_mem hidx 0
  have hr := f.chain.range _ hlastmem
  obtain ⟨d', hend, hsync, hframe, htable⟩ := chainEnd_last f.chain f.sync f.works g.last_lt hne
  unfold FileState.mfsAddClusterToChain
  rw [if_neg (by simp [f.works.writable]), if_neg (by omega)]
  simp only [hend, ne_eq, not_true_eq_false, if_false]
  rcases findUnused_spec (s := { s with d := d' }) hsync (hframe.works f.works)
      (cl.getD (cl.length - 1) 0 + 1) with ⟨d₁, hfind, hs1, hf1, ht1, hnone⟩ | ⟨c, d₁, hfind, hs1,
        hf1, ht1, hmin, hlast, hfree⟩
  · left
    rw [hfind]
    refine ⟨d₁, rfl, hs1, hframe.trans hf1, htable.trans ht1, ?_⟩
    rw [← htable.freeClusters]
    apply Finset.eq_empty_of_forall_notMem
    intro e he
    obtain ⟨hmin, hlast, hfree⟩ := mem_freeClusters.mp he
    exact hnone (by omega) e hmin hlast hfree
  · right
    rw [hfind]
    simp only at hlast hfree ⊢
    rw [htable.vol] at hlast
    rw [htable.entryCode hlast] at hfree
    have hframe1 := hframe.trans hf1
    have htable1 := htable.trans ht1
    have w1 := hframe1.works f.works
    have hchain1 := f.chain.sameTable htable1
    have hlast1 : c ≤ d₁.vol.lastCluster := by rw [htable1.vol]; exact hlast
    have hfree1 : entryCode d₁ c = clusterUnused := by
      rw [htable1.entryCode hlast]
      exact hfree
    obtain ⟨d₂, hput, hs2, hf2, hp2⟩ := mfsPutFat_works hs1 w1 hr.1
      (by rw [htable1.vol]; exact hr.2) (BitVec.ofNat 32 c)
    have w2 := hf2.works w1
    obtain ⟨d₃, hput', hs3, hf3, hp3⟩ := mfsPutFat_works hs2 w2 hmin
      (by rw [hp2.vol]; exact hlast1) clusterEof
    rw [hput]
    simp only [not_true_eq_false, if_false]
    rw [hput']
    obtain ⟨hcode, hlt⟩ := g.code_lt hlast
    have hcode1 : BitVec.ofNat 32 c < clusterMax d₁.vol.fatType := by rw [htable1.vol]; exact hcode
    refine ⟨c, d₃, rfl, hs3, (hframe1.trans hf2).trans hf3,
      hchain1.concat hne hmin hlast1 hfree1 hcode1 hlt hp2 hp3,
      mem_freeClusters.mpr ⟨hmin, hlast, hfree⟩, ?_⟩
    rw [hp3.freeClusters_eof, hp2.freeClusters_link hmin hcode1 hlt
      (hchain1.linkable _ hlastmem) (hchain1.not_unused hlastmem), htable1.freeClusters]

/-- Either the disk is full, or a cluster is added that was free. -/
theorem addCluster_spec (f : FileInv s cl) (hne : cl ≠ []) :
    (s.mfsAddClusterToChain (cl.getD (cl.length - 1) 0)).2.full = true ∨
    ∃ c s', s.mfsAddClusterToChain (cl.getD (cl.length - 1) 0) = (.noError, s') ∧
      OnlyFat s s' ∧ FileInv s' (cl ++ [c]) ∧ s'.currentCluster = c ∧
      s'.previousCluster = s.previousCluster ∧ s'.full = s.full ∧
      ∀ r < s.layout.sectorsPerCluster, s.dataSectorNumber ≠ s.clusterToSector c + r := by
  rcases addCluster_cases f.linked hne with ⟨d', hadd, -⟩ | ⟨c, d', hadd, hsync, hframe, hchain,
    hfree, herase⟩
  · left
    rw [hadd]
  · right
    have honly : OnlyFat s { s with d := d', nextFreeCluster := c, currentCluster := c } :=
      ⟨rfl, rfl, rfl, rfl, rfl, rfl, rfl, hsync, hframe⟩
    obtain ⟨hmin, hlast, hunused⟩ := mem_freeClusters.mp hfree
    refine ⟨c, _, hadd, honly, ⟨honly.driveInv f.drive, hchain, ?_, ?_⟩, rfl, rfl, rfl,
      f.apart c hmin hlast hunused⟩
    · rw [List.getD_append _ _ _ _ (List.length_pos_of_ne_nil hne)]
      exact f.first
    · -- what is free now was free before
      intro c' hmin' hlast' hfree' r hr
      have hmem : c' ∈ freeClusters d' := mem_freeClusters.mpr ⟨hmin', hlast', hfree'⟩
      rw [herase, Finset.mem_erase, mem_freeClusters] at hmem
      exact f.apart c' hmin' hmem.2.2.1 hmem.2.2.2 r hr

end Mqx.Mfs
