import Mqx.Mfs.LongName

/-!
# What the long name reader returns

The entries before the short entry are read one after the other. A deleted entry sends the search
forward to the entry that was read last, which is then taken again.
-/

namespace Mqx.Mfs

/-- An entry at which a search stops. -/
def Regular (e : ℕ → Byte) : Prop := e 0 ≠ 0 ∧ e 0 ≠ delFile

/-- The entry read last: the short entry, or an entry of a long name whose characters are the last
of `text`. -/
inductive Prior (sum : Byte) (e : ℕ → Byte) : List Byte → Prop
  | short (hattr : e attrOffset ≠ attrLfn) : Prior sum e []
  | long (text : List Byte) (hlfn : IsLfn sum e) (hend : ¬e 0 &&& mfsLfnEnd ≠ 0) :
      Prior sum e (text ++ mfsLfnExtract e)

namespace DirDisk

variable {v : DirDisk} {sum : Byte} {s t : LfnReader} {e : ℕ → Byte}

theorem getLfnLoop_mono {res : MfsError × List Byte} {fuel : ℕ} (k : ℕ) : ∀ {s : LfnReader},
    v.getLfnLoop sum fuel s = some res → v.getLfnLoop sum (fuel + k) s = some res := by
  induction fuel with
  | zero => intro s h; cases h
  | succ fuel ih =>
    intro s h
    rw [Nat.add_right_comm, getLfnLoop]
    rw [getLfnLoop] at h
    split
    · next hstop => rwa [if_pos hstop] at h
    · next hstop =>
      rw [if_neg hstop] at h
      simp only at h ⊢
      generalize (if s.index = 0 then v.goBack s else (MfsError.noError, s)) = t at h ⊢
      split
      · next herr => rwa [if_pos herr] at h
      · next herr =>
        rw [if_neg herr] at h
        cases hfind : v.findEntry fuel false t.2.cluster (t.2.index - 1) t.2.prevCluster
            t.2.drive with
        | none =>
          rw [hfind] at h
          cases h
        | some r =>
          rw [hfind] at h
          rw [findEntry_mono k hfind]
          simp only at h ⊢
          cases hread : readEntry sum t.2 r with
          | inl result =>
            rw [hread] at h
            exact h
          | inr next =>
            rw [hread] at h
            exact ih h

/-- The loop returns this. -/
def Outcome (v : DirDisk) (sum : Byte) (s : LfnReader) (err : MfsError) (name : List Byte) : Prop :=
  ∃ fuel, v.getLfnLoop sum fuel s = some (err, name)

theorem Outcome.unique {err err' : MfsError} {name name' : List Byte}
    (h : v.Outcome sum s err name) (h' : v.Outcome sum s err' name') :
    err' = err ∧ name' = name := by
  obtain ⟨fuel, h⟩ := h
  obtain ⟨fuel', h'⟩ := h'
  have hmono := getLfnLoop_mono fuel' h
  have hmono' := getLfnLoop_mono fuel h'
  rw [Nat.add_comm, hmono] at hmono'
  simp only [Option.some.injEq, Prod.mk.injEq] at hmono'
  exact ⟨hmono'.1.symm, hmono'.2.symm⟩

/-- A turn of the loop, up to the search, leads to `t`. -/
def Turns (v : DirDisk) (s t : LfnReader) : Prop :=
  ¬(s.index = 0 ∧ s.wentBack = true) ∧
    (if s.index = 0 then v.goBack s else (.noError, s)) = (.noError, t)

/-- The search of a turn finds this. -/
def Finds (v : DirDisk) (t : LfnReader) (r : FindResult) : Prop :=
  ∃ fuel, v.findEntry fuel false t.cluster (t.index - 1) t.prevCluster t.drive = some r

theorem Turns.of_index (h : s.index ≠ 0) : v.Turns s s := ⟨fun hs => h hs.1, if_neg h⟩

theorem Turns.returns (h : v.Turns s t) {r : FindResult} (hfind : v.Finds t r)
    {err : MfsError} {name : List Byte} (hread : readEntry sum t r = .inl (err, name)) :
    v.Outcome sum s err name := by
  obtain ⟨fuel, hfind⟩ := hfind
  refine ⟨fuel + 1, ?_⟩
  rw [getLfnLoop, if_neg h.1, h.2]
  simp only [ne_eq, not_true_eq_false, if_false]
  rw [hfind]
  simp only [hread]

theorem Turns.continues (h : v.Turns s t) {r : FindResult} (hfind : v.Finds t r)
    {next : LfnReader} (hread : readEntry sum t r = .inr next) {err : MfsError} {name : List Byte}
    (hnext : v.Outcome sum next err name) : v.Outcome sum s err name := by
  obtain ⟨fuel, hfind⟩ := hfind
  obtain ⟨fuel', hnext⟩ := hnext
  refine ⟨fuel + fuel' + 1, ?_⟩
  rw [getLfnLoop, if_neg h.1, h.2]
  simp only [ne_eq, not_true_eq_false, if_false]
  rw [findEntry_mono fuel' hfind]
  simp only [hread]
  rw [Nat.add_comm]
  exact getLfnLoop_mono fuel hnext

/-- At the start of the cluster before nothing more is read. -/
theorem outcome_crossed (hindex : s.index = 0) (hback : s.wentBack = true) :
    v.Outcome sum s .noError s.lfn := by
  refine ⟨1, ?_⟩
  rw [getLfnLoop, if_pos ⟨hindex, hback⟩]

/-! ## Deleted entries -/

/-- A deleted entry leaves a name if there was one, and none otherwise. -/
def Leaves (v : DirDisk) (sum : Byte) (s : LfnReader) : Prop :=
  ∃ err name, v.Outcome sum s err name ∧
    (err = .noError ∧ cString name ≠ [] ↔ cString s.lfn ≠ [])

/-- The entry read last is found again. -/
theorem leaves_again {c i prev : ℕ} {d : Drive} (hp : Prior sum e t.lfn) (hturn : v.Turns s t)
    (hlfn : t.lfn = s.lfn) (hfind : v.Finds t (.found e c i prev d))
    (hagain : IsLfn sum e → HasCount t.entryCount e → ∃ err name,
      v.Outcome sum
        { cluster := c
          index := i
          prevCluster := prev
          entryCount := t.entryCount + 1
          wentBack := t.wentBack
          lfn := t.lfn ++ mfsLfnExtract e
          drive := d } err name ∧
        (err = .noError ∧ cString name ≠ [] ↔ cString (t.lfn ++ mfsLfnExtract e) ≠ [])) :
    v.Leaves sum s := by
  unfold Leaves
  rw [← hlfn]
  generalize htext : t.lfn = text at hp
  cases hp with
  | short hattr =>
    refine ⟨.fileNotFound, t.lfn, hturn.returns hfind (if_pos hattr), ?_⟩
    exact iff_of_false (fun h => absurd h.1 (by decide)) (fun h => h rfl)
  | long text' he hend =>
    have hread : readEntry sum t (.found e c i prev d) =
        if ¬HasCount t.entryCount e then .inl (.noError, t.lfn) else .inr
          { cluster := c
            index := i
            prevCluster := prev
            entryCount := t.entryCount + 1
            wentBack := t.wentBack
            lfn := t.lfn ++ mfsLfnExtract e
            drive := d } := by
      rw [readEntry, if_neg (not_not.mpr he.1), if_neg (not_not.mpr he.2), if_neg hend]
    by_cases hcount : HasCount t.entryCount e
    · rw [if_neg (not_not.mpr hcount)] at hread
      obtain ⟨err, name, hout, hname⟩ := hagain he hcount
      refine ⟨err, name, hturn.continues hfind hread hout, ?_⟩
      rw [hname, htext, not_iff_not]
      exact cString_again _ _
    · rw [if_pos hcount] at hread
      refine ⟨.noError, t.lfn, hturn.returns hfind hread, ?_⟩
      rw [htext]
      exact ⟨fun h => h.2, fun h => ⟨rfl, h⟩⟩

/-- Every 256th count fails the test. -/
theorem not_hasCount (e : ℕ → Byte) (m : ℕ) : ¬HasCount (2 ^ 8 * m) e := by
  rw [HasCount, not_not]
  apply Nat.eq_of_testBit_eq
  intro j
  rw [Nat.testBit_and, Nat.testBit_two_pow_mul, Nat.zero_testBit]
  rcases Nat.lt_or_ge j 8 with hj | hj
  · rw [decide_eq_false (not_le.mpr hj), Bool.false_and, Bool.and_false]
  · have hlt : (e 0).toNat < 2 ^ j :=
      lt_of_lt_of_le (e 0).isLt (Nat.pow_le_pow_right (by decide) hj)
    rw [Nat.testBit_lt_two_pow hlt, Bool.false_and]

/-- Within a cluster the entry read last is taken until its number fails the test. -/
theorem leaves_deleted {c i m : ℕ} {d : Drive} {x : ℕ → Byte} (hd : d.vol.Ok)
    (hplace : v.Place d c (i + 1)) (hx : v.slot c i = some x) (hdel : x 0 = delFile)
    (he : v.slot c (i + 1) = some e) (hreg : Regular e) (k : ℕ) :
    ∀ {s : LfnReader}, s.cluster = c → s.index = i + 1 → s.drive = d →
      s.entryCount + k = 2 ^ 8 * m → Prior sum e s.lfn → v.Leaves sum s := by
  have hplace' : v.Place d c i := ⟨hplace.cluster, fun hc => Nat.lt_of_succ_lt (hplace.index hc)⟩
  have hfind : ∀ {s : LfnReader}, s.cluster = c → s.index = i + 1 → s.drive = d →
      v.Finds s (.found e c (i + 1) s.prevCluster d) := by
    intro s hcluster hindex hdrive
    refine ⟨2, ?_⟩
    rw [hcluster, hindex, hdrive, Nat.add_sub_cancel, findEntry_deleted hplace' hd hx hdel]
    exact findEntry_here hplace hd he hreg.1 hreg.2
  induction k with
  | zero =>
    intro s hcluster hindex hdrive hcount hp
    refine leaves_again hp (.of_index (by omega)) rfl (hfind hcluster hindex hdrive) fun _ hc => ?_
    rw [← Nat.add_zero s.entryCount, hcount] at hc
    exact absurd hc (not_hasCount e m)
  | succ k ih =>
    intro s hcluster hindex hdrive hcount hp
    refine leaves_again hp (.of_index (by omega)) rfl (hfind hcluster hindex hdrive) fun hlfn _ => ?_
    have hlong : ¬e 0 &&& mfsLfnEnd ≠ 0 := by
      generalize s.lfn = text at hp
      cases hp with
      | short hattr => exact absurd hlfn.1 hattr
      | long text hlfn hend => exact hend
    obtain ⟨err, name, hout, hname⟩ := @ih
      { cluster := c
        index := i + 1
        prevCluster := s.prevCluster
        entryCount := s.entryCount + 1
        wentBack := s.wentBack
        lfn := s.lfn ++ mfsLfnExtract e
        drive := d } rfl rfl rfl (by simp only; omega) (.long s.lfn hlfn hlong)
    exact ⟨err, name, hout, hname⟩

/-! ## The cluster before -/

/-- The step back succeeds if the hint is right. -/
theorem mfsGetPrevCluster_works {d : Drive} {c hint : ℕ} (h : d.InSync) (w : d.Reads)
    (hprev : v.HasPrev d c hint) : ∃ d', mfsGetPrevCluster d v.rootCluster c hint =
      (.noError, hint, d') ∧ d'.InSync ∧ d'.Reads ∧ SameTable d d' := by
  obtain ⟨hroot, hin, hnext⟩ := hprev
  obtain ⟨d', hget, hsync, hframe, htable⟩ := mfsGetClusterFromFat_works h w hin.1 hin.2
  refine ⟨d', ?_, hsync, hframe.reads w, htable⟩
  have hvalid : hint ≠ clusterInvalid := by
    have hmin := hin.1
    unfold clusterMinGood at hmin
    unfold clusterInvalid
    omega
  rw [mfsGetPrevCluster, if_neg hroot, hget]
  exact if_pos ⟨hvalid, hnext.symm⟩

/-- It fails otherwise. -/
theorem mfsGetPrevCluster_fails {d : Drive} {c hint : ℕ} (h : d.InSync) (w : d.Reads)
    (hc : c = 0 ∨ clusterMinGood ≤ c ∧ c ≤ d.vol.lastCluster) (hprev : ¬v.HasPrev d c hint) :
    (mfsGetPrevCluster d v.rootCluster c hint).1 ≠ .noError := by
  by_cases hroot : if d.vol.fatType = .fat32 then c = v.rootCluster else c = 0
  · rw [mfsGetPrevCluster, if_pos hroot]
    exact (by decide : MfsError.invalidClusterNumber ≠ .noError)
  have hnot : ¬((clusterMinGood ≤ hint ∧ hint ≤ d.vol.lastCluster) ∧ fatNext d hint = c) :=
    fun hh => hprev ⟨hroot, hh⟩
  by_cases hfat : d.vol.fatType = .fat32
  · have hne : c ≠ (mfsGetClusterFromFat d hint).2.1.toNat := by
      by_cases hin : clusterMinGood ≤ hint ∧ hint ≤ d.vol.lastCluster
      · obtain ⟨d', hget, -⟩ := mfsGetClusterFromFat_works h w hin.1 hin.2
        rw [hget]
        exact fun heq => hnot ⟨hin, heq.symm⟩
      · rw [(mfsGetClusterFromFat_eof hin).1]
        have hgt := eofCluster_gt h.vol
        omega
    rw [mfsGetPrevCluster, if_neg hroot, if_neg (fun hh => hne hh.2)]
    simp only [if_pos hfat]
    decide
  · rw [if_neg hfat] at hroot
    obtain hzero | ⟨hmin, hlast⟩ := hc
    · exact absurd hzero hroot
    · rw [mfsGetPrevCluster_none h w hfat v.rootCluster hmin hlast hnot]
      decide

/-- Where a turn at the start of a cluster goes on. -/
theorem turns_back {d : Drive} {c hint : ℕ} (h : d.InSync) (w : d.Reads)
    (hprev : v.HasPrev d c hint) (hcluster : s.cluster = c) (hindex : s.index = 0)
    (hhint : s.prevCluster = hint) (hback : s.wentBack = false) (hdrive : s.drive = d) :
    ∃ d', d'.InSync ∧ d'.Reads ∧ SameTable d d' ∧ v.Turns s { s with
      wentBack := true
      cluster := hint
      index := v.entriesPerCluster
      drive := d' } := by
  obtain ⟨d', hget, hsync, hreads, htable⟩ := mfsGetPrevCluster_works h w hprev
  refine ⟨d', hsync, hreads, htable, fun hs => ?_, ?_⟩
  · rw [hback] at hs
    exact absurd hs.2 (by decide)
  · rw [if_pos hindex, goBack, hcluster, hhint, hdrive, hget]

/-- From the end of a cluster the search comes to the start of the next one. -/
theorem leaves_crossing {d : Drive} {c hint i : ℕ} {x : ℕ → Byte} (h : d.InSync) (w : d.Reads)
    (hc : c = 0 ∨ clusterMinGood ≤ c ∧ c ≤ d.vol.lastCluster)
    (hin : clusterMinGood ≤ hint ∧ hint ≤ d.vol.lastCluster) (hnext : fatNext d hint = c)
    (hi : v.entriesPerCluster = i + 1) (hx : v.slot hint i = some x) (hdel : x 0 = delFile)
    (he : v.slot c 0 = some e) (hreg : Regular e) (hturn : v.Turns s t) (hlfn : t.lfn = s.lfn)
    (hcluster : t.cluster = hint) (hindex : t.index = i + 1) (hback : t.wentBack = true)
    (hdrive : t.drive = d) (hp : Prior sum e t.lfn) : v.Leaves sum s := by
  have hfits := eofCluster_gt h.vol
  have hvalid : fatNext d hint ≠ clusterInvalid := by
    unfold clusterMinGood at hc
    unfold clusterInvalid
    omega
  obtain ⟨prev, d', hsync, hreads, htable, hend⟩ := @findEntry_next v hint t.prevCluster d h w
    hin.1 hin.2 hvalid (by omega)
  rw [hnext, hi] at hend
  have hplace : v.Place d hint i := ⟨Or.inr hin, fun _ => by omega⟩
  have hpos : 0 < v.entriesPerCluster := by omega
  have hplace' : v.Place d' c 0 := ⟨by rw [htable.vol]; exact hc, fun _ => hpos⟩
  have hfind : v.Finds t (.found e c 0 prev d') := by
    refine ⟨1 + v.entriesPerSector + 1, ?_⟩
    rw [hcluster, hindex, hdrive, Nat.add_sub_cancel, findEntry_deleted hplace h.vol hx hdel, hend]
    exact findEntry_here hplace' hsync.vol he hreg.1 hreg.2
  refine leaves_again hp hturn hlfn hfind fun _ _ => ⟨.noError, _, outcome_crossed rfl hback, ?_⟩
  exact ⟨fun hh => hh.2, fun hh => ⟨rfl, hh⟩⟩

/-! ## Turns -/

section

variable {crossed numbered : Prop} {earlier slots : List (Option (ℕ → Byte))}

/-- From here on the loop returns, and a name it returns is the one of the entries exactly if the
entries are orderly. -/
def Settled (v : DirDisk) (sum : Byte) (crossed : Prop) (earlier : List (Option (ℕ → Byte)))
    (s : LfnReader) (numbered : Prop) (slots : List (Option (ℕ → Byte))) : Prop :=
  ∃ err name, v.Outcome sum s err name ∧
    ((err = .noError → cString name ≠ [] → numbered ∧ ∃ more, cString name = s.lfn ++ more ∧
      LongRun sum s.entryCount (slots ++ earlier) more) ↔
      Orderly sum crossed earlier s.entryCount numbered s.lfn slots)

theorem settled_error {err : MfsError} {name : List Byte} (hout : v.Outcome sum s err name)
    (herr : err ≠ .noError) (hord : Orderly sum crossed earlier s.entryCount numbered s.lfn slots) :
    v.Settled sum crossed earlier s numbered slots :=
  ⟨err, name, hout, iff_of_true (fun h => absurd h herr) hord⟩

/-- Where no long name is, only the empty name is right. -/
theorem settled_leaves (h : v.Leaves sum s)
    (hnone : ∀ more, ¬LongRun sum s.entryCount (slots ++ earlier) more)
    (hord : Orderly sum crossed earlier s.entryCount numbered s.lfn slots ↔ cString s.lfn = []) :
    v.Settled sum crossed earlier s numbered slots := by
  obtain ⟨err, name, hout, hname⟩ := h
  refine ⟨err, name, hout, ?_⟩
  rw [hord, ← not_iff_not]
  refine Iff.trans ?_ hname
  constructor
  · intro hno
    simp only [Classical.not_imp] at hno
    exact ⟨hno.1, hno.2.1⟩
  · rintro ⟨herr, hnonempty⟩ hyes
    obtain ⟨-, more, -, hrun⟩ := hyes herr hnonempty
    exact hnone more hrun

/-- One turn that looks at the entry before index `i + 1`. -/
theorem settled_turn {i : ℕ} (hd : t.drive.vol.Ok) (hturn : v.Turns s t) (hlfn : t.lfn = s.lfn)
    (hcount : t.entryCount = s.entryCount) (hindex : t.index = i + 1)
    (hplace : v.Place t.drive t.cluster i) (hone : 1 ≤ s.entryCount)
    (hdel : ∀ e, v.slot t.cluster i = some e → e 0 = delFile → v.Leaves sum s)
    (hnext : ∀ e, v.slot t.cluster i = some e → Regular e → IsLfn sum e →
      ¬e 0 &&& mfsLfnEnd ≠ 0 → v.Settled sum crossed earlier
        { t with
          index := i
          entryCount := s.entryCount + 1
          lfn := s.lfn ++ mfsLfnExtract e }
        (numbered ∧ s.entryCount < 64 ∧ (e 0).toNat = s.entryCount) slots) :
    v.Settled sum crossed earlier s numbered (v.slot t.cluster i :: slots) := by
  have hfind : ∀ {r : FindResult}, v.findEntry 1 false t.cluster i t.prevCluster t.drive = some r →
      v.Finds t r := by
    intro r hr
    refine ⟨1, ?_⟩
    rw [hindex, Nat.add_sub_cancel]
    exact hr
  cases hslot : v.slot t.cluster i with
  | none =>
    obtain ⟨err, d', hmissing⟩ := @findEntry_none v t.cluster i t.prevCluster t.drive false hplace
      hd hslot
    refine settled_error (hturn.returns (hfind hmissing) rfl) ?_ trivial
    split
    · next herr => exact herr
    · decide
  | some e =>
    by_cases hzero : e 0 = 0
    · have hunused := @findEntry_unused v t.cluster i t.prevCluster t.drive false e hplace hd hslot
        hzero
      refine settled_error (hturn.returns (hfind hunused) rfl) (by decide) ?_
      rw [Orderly, if_pos hzero]
      trivial
    by_cases hdeleted : e 0 = delFile
    · refine settled_leaves (hdel e hslot hdeleted) (fun more hrun => ?_) ?_
      · exact (hrun.head hone).2.2 hdeleted
      · rw [Orderly, if_neg hzero, if_pos hdeleted]
    have hhere := @findEntry_here v t.cluster i t.prevCluster t.drive false e hplace hd hslot hzero
      hdeleted
    have hstop : ∀ {err : MfsError} {name : List Byte},
        readEntry sum t (.found e t.cluster i t.prevCluster t.drive) = .inl (err, name) →
        v.Outcome sum s err name := fun hread => hturn.returns (hfind hhere) hread
    by_cases hattr : e attrOffset = attrLfn
    swap
    · refine settled_error (hstop (if_pos hattr)) (by decide) ?_
      rw [Orderly, if_neg hzero, if_neg hdeleted, if_pos hattr]
      trivial
    rw [readEntry, if_neg (not_not.mpr hattr)] at hstop
    by_cases hother : e aliasChecksumOffset ≠ sum ∨ ¬HasCount s.entryCount e
    · refine settled_leaves ⟨.noError, s.lfn, ?_, fun h => h.2, fun h => ⟨rfl, h⟩⟩
        (fun more hrun => ?_) ?_
      · rw [← hlfn]
        apply hstop
        rw [hcount]
        by_cases hsum : e aliasChecksumOffset = sum
        · rw [if_neg (not_not.mpr hsum), if_pos (hother.resolve_left (not_not.mpr hsum))]
        · rw [if_pos hsum]
      · obtain ⟨hlong, hhas, -⟩ := hrun.head hone
        exact hother.elim (fun hne => hne hlong.2) (fun hne => hne hhas)
      · rw [Orderly, if_neg hzero, if_neg hdeleted, if_neg (not_not.mpr hattr), if_pos hother]
    obtain ⟨hsum, hhas⟩ := not_or.mp hother
    rw [not_not] at hsum hhas
    have hlong : IsLfn sum e := ⟨hattr, hsum⟩
    by_cases hend : e 0 &&& mfsLfnEnd ≠ 0
    · refine ⟨.noError, s.lfn ++ mfsLfnExtract e, hstop ?_, ?_⟩
      · rw [if_neg (not_not.mpr hsum), hcount, if_neg (not_not.mpr hhas), if_pos hend, hlfn]
      · rw [Orderly, if_neg hzero, if_neg hdeleted, if_neg (not_not.mpr hattr), if_neg hother,
          if_pos hend]
        simp only [List.cons_append, longRun_last hend hlong]
        constructor
        · intro h
          by_cases hempty : cString (s.lfn ++ mfsLfnExtract e) = []
          · exact Or.inl hempty
          · obtain ⟨hnum, more, hstring, hlt, hid, rfl⟩ := h trivial hempty
            exact Or.inr ⟨hnum, hlt, hid, cString_eq_self.mp hstring⟩
        · rintro (hempty | ⟨hnum, hlt, hid, hzeros⟩) - hnonempty
          · exact absurd hempty hnonempty
          · exact ⟨hnum, _, cString_eq_self.mpr hzeros, hlt, hid, rfl⟩
    · obtain ⟨err, name, hout, hiff⟩ := hnext e hslot ⟨hzero, hdeleted⟩ hlong hend
      refine ⟨err, name, hturn.continues (hfind hhere) ?_ hout, ?_⟩
      · rw [readEntry, if_neg (not_not.mpr hattr), if_neg (not_not.mpr hsum), hcount,
          if_neg (not_not.mpr hhas), if_neg hend, hlfn]
      · rw [Orderly, if_neg hzero, if_neg hdeleted, if_neg (not_not.mpr hattr), if_neg hother,
          if_neg hend, ← hiff]
        simp only [List.cons_append, longRun_more hend hlong, List.append_assoc]
        refine imp_congr_right fun _ => imp_congr_right fun _ => ?_
        constructor
        · rintro ⟨hnum, _, hstring, hlt, hid, more, rfl, hrun⟩
          exact ⟨⟨hnum, hlt, hid⟩, more, hstring, hrun⟩
        · rintro ⟨⟨hnum, hlt, hid⟩, more, hstring, hrun⟩
          exact ⟨hnum, _, hstring, hlt, hid, more, rfl, hrun⟩

/-- The turns over the cluster before. -/
theorem settled_crossed {d : Drive} {hint : ℕ} (hd : d.vol.Ok)
    (hin : clusterMinGood ≤ hint ∧ hint ≤ d.vol.lastCluster) (hcrossed : crossed) (i : ℕ) :
    ∀ {s : LfnReader} {e : ℕ → Byte} {numbered : Prop}, s.cluster = hint → s.index = i →
      s.wentBack = true → s.drive = d → 1 ≤ s.entryCount → i < v.entriesPerCluster →
      v.slot hint i = some e → Regular e → Prior sum e s.lfn →
      v.Settled sum crossed earlier s numbered (v.slotsDown hint i) := by
  induction i with
  | zero =>
    intro s e numbered hcluster hindex hback hdrive hone hi he hreg hp
    refine ⟨.noError, s.lfn, outcome_crossed hindex hback, ?_⟩
    rw [slotsDown, Orderly, List.nil_append]
    simp only [cString_eq_append]
    constructor
    · intro h _
      by_cases hempty : cString s.lfn = []
      · exact Or.inl hempty
      · obtain ⟨hnum, _, ⟨hzeros, rfl⟩, hrun⟩ := h trivial hempty
        exact Or.inr ⟨hnum, hzeros, hrun⟩
    · intro h _ hnonempty
      obtain ⟨hnum, hzeros, hrun⟩ := (h hcrossed).resolve_left hnonempty
      exact ⟨hnum, [], ⟨hzeros, rfl⟩, hrun⟩
  | succ i ih =>
    intro s e numbered hcluster hindex hback hdrive hone hi he hreg hp
    subst hcluster hdrive
    have hplace : v.Place s.drive s.cluster (i + 1) := ⟨Or.inr hin, fun _ => hi⟩
    refine settled_turn hd (.of_index (by omega)) rfl rfl hindex
      ⟨Or.inr hin, fun _ => Nat.lt_of_succ_lt hi⟩ hone (fun x hx hdel => ?_)
      (fun x hx hregx hlfn hend => ?_)
    · exact leaves_deleted (m := s.entryCount) hd hplace hx hdel he hreg (255 * s.entryCount) rfl
        hindex rfl (by omega) hp
    · exact ih rfl rfl hback rfl (Nat.le_add_left 1 _) (Nat.lt_of_succ_lt hi) hx hregx
        (.long s.lfn hlfn hend)

/-- The turns from the short entry on. -/
theorem settled_before {d : Drive} {c hint : ℕ} (h : d.InSync) (w : d.Reads) (i : ℕ) :
    ∀ {s : LfnReader} {e : ℕ → Byte} {numbered : Prop}, s.cluster = c → s.index = i →
      s.prevCluster = hint → s.wentBack = false → s.drive = d → 1 ≤ s.entryCount →
      v.Place d c i → v.slot c i = some e → Regular e → Prior sum e s.lfn →
      v.Settled sum (v.HasPrev d c hint) earlier s numbered (v.slotsBefore d c i hint) := by
  induction i with
  | zero =>
    intro s e numbered hcluster hindex hhint hback hdrive hone hplace he hreg hp
    rw [slotsBefore, slotsDown, List.nil_append]
    by_cases hprev : v.HasPrev d c hint
    · obtain ⟨d', hsync, hreads, htable, hturn⟩ := turns_back h w hprev hcluster hindex hhint
        hback hdrive
      have hin : clusterMinGood ≤ hint ∧ hint ≤ d'.vol.lastCluster := by
        rw [htable.vol]
        exact hprev.2.1
      have hnext : fatNext d' hint = c := by
        rw [fatNext, htable.entryCode hprev.2.1.2]
        exact hprev.2.2
      have hc : c = 0 ∨ clusterMinGood ≤ c ∧ c ≤ d'.vol.lastCluster := by
        rw [htable.vol]
        exact hplace.cluster
      have hpos : 0 < v.entriesPerCluster :=
        Nat.mul_pos v.entriesPerSector_pos v.sectorsPerCluster_pos
      obtain ⟨k, hk⟩ : ∃ k, v.entriesPerCluster = k + 1 := ⟨_, (Nat.succ_pred_eq_of_pos hpos).symm⟩
      rw [if_pos hprev, hk, slotsDown]
      rw [hk] at hturn
      refine settled_turn hsync.vol hturn rfl rfl rfl ⟨Or.inr hin, fun _ => by omega⟩ hone
        (fun x hx hdel => ?_) (fun x hx hregx hlfn hend => ?_)
      · exact leaves_crossing hsync hreads hc hin hnext hk hx hdel he hreg hturn rfl rfl rfl rfl rfl
          hp
      · exact settled_crossed hsync.vol hin hprev k rfl rfl rfl rfl (Nat.le_add_left 1 _) (by omega)
          hx hregx (.long s.lfn hlfn hend)
    · have herr := mfsGetPrevCluster_fails h w hplace.cluster hprev
      have hout : v.Outcome sum s (mfsGetPrevCluster d v.rootCluster c hint).1 s.lfn := by
        refine ⟨1, ?_⟩
        rw [getLfnLoop, if_neg (by rw [hback]; exact fun hs => absurd hs.2 (by decide)),
          if_pos hindex, goBack, hcluster, hhint, hdrive]
        exact if_pos herr
      rw [if_neg hprev]
      exact settled_error hout herr fun hyes => absurd hyes hprev
  | succ i ih =>
    intro s e numbered hcluster hindex hhint hback hdrive hone hplace he hreg hp
    subst hcluster hdrive
    have hplace' : v.Place s.drive s.cluster i :=
      ⟨hplace.cluster, fun hc => Nat.lt_of_succ_lt (hplace.index hc)⟩
    refine settled_turn h.vol (.of_index (by omega)) rfl rfl hindex hplace' hone
      (fun x hx hdel => ?_) (fun x hx hregx hlfn hend => ?_)
    · exact leaves_deleted (m := s.entryCount) h.vol hplace hx hdel he hreg (255 * s.entryCount) rfl
        hindex rfl (by omega) hp
    · exact ih rfl rfl hhint hback rfl (Nat.le_add_left 1 _) hplace' hx hregx
        (.long s.lfn hlfn hend)

end

end DirDisk

/-! ## Long names and directories -/

/-- A name that the reader returns without an error is the one that the entries before the short
entry spell, exactly if these entries are orderly. -/
theorem long_name_reader (v : DirDisk) {d : Drive} (h : d.InSync) (w : d.Reads) {c i : ℕ}
    (hint : ℕ) {e : ℕ → Byte} (hplace : v.Place d c i) (he : v.slot c i = some e)
    (hreg : Regular e) (hattr : e attrOffset ≠ attrLfn) (earlier : List (Option (ℕ → Byte))) :
    (∀ fuel buffer, v.mfsGetLfnOfEntry fuel (some e) c i hint d = some (.noError, buffer) →
      cString buffer ≠ [] → LongRun (mfsLfnChecksum e) 1 (v.slotsBefore d c i hint ++ earlier)
        (cString buffer)) ↔
    Orderly (mfsLfnChecksum e) (v.HasPrev d c hint) earlier 1 True []
      (v.slotsBefore d c i hint) := by
  obtain ⟨err, name, hout, hiff⟩ := @DirDisk.settled_before v (mfsLfnChecksum e) earlier d c hint
    h w i
    { cluster := c
      index := i
      prevCluster := hint
      entryCount := 1
      wentBack := false
      lfn := []
      drive := d } e True rfl rfl rfl rfl rfl le_rfl hplace he hreg (.short hattr)
  rw [← hiff]
  simp only [true_and, List.nil_append, exists_eq_left']
  constructor
  · rintro hall rfl hnonempty
    obtain ⟨fuel, hrun⟩ := hout
    exact hall fuel name hrun hnonempty
  · intro hright fuel buffer hrun hnonempty
    obtain ⟨rfl, rfl⟩ := hout.unique ⟨fuel, hrun⟩
    exact hright rfl hnonempty

theorem namedDisk_pos : 0 < 16 := by decide

/-- A root directory with the file `A` behind the only entry of the long name `A`, with the number
`id`. -/
def namedDisk (id : Byte) : DirDisk where
  entriesPerSector := 16
  sectorsPerCluster := 1
  rootEntries := 16
  rootCluster := 0
  sector cluster k := if cluster = 0 ∧ k = 0 then some fun o =>
      if o = 0 then id
      else if o = 1 ∨ o = 32 then 0x41
      else if o = attrOffset then attrLfn
      else if o = aliasChecksumOffset then 0x80
      else if 32 < o ∧ o ≤ 43 then 0x20
      else 0
    else none
  entriesPerSector_pos := namedDisk_pos
  sectorsPerCluster_pos := Nat.one_pos

theorem namedDisk_place (id : Byte) : (namedDisk id).Place linkedDrive 0 1 :=
  ⟨Or.inl rfl, fun hc => absurd rfl hc⟩

/-- With the number of a first and last entry the name is right. -/
theorem long_name_reader_named : ∃ e, (namedDisk 0x41).slot 0 1 = some e ∧
    ∀ fuel buffer, (namedDisk 0x41).mfsGetLfnOfEntry fuel (some e) 0 1 1 linkedDrive =
        some (.noError, buffer) → cString buffer ≠ [] →
      LongRun (mfsLfnChecksum e) 1 ((namedDisk 0x41).slotsBefore linkedDrive 0 1 1 ++ [])
        (cString buffer) := by
  refine ⟨_, rfl, (long_name_reader (namedDisk 0x41) linkedDrive_inSync linkedDrive_reads 1
    (namedDisk_place 0x41) rfl ⟨by decide, by decide⟩ (by decide) []).mpr ?_⟩
  rw [DirDisk.slotsBefore, if_neg (by decide), DirDisk.slotsDown, DirDisk.slotsDown,
    List.append_nil]
  refine Or.inr ⟨trivial, by decide, by decide, by decide⟩

/-- The only entry has the number 3 and is taken for a whole name. -/
theorem long_name_reader_misnumbered : linkedDrive.InSync ∧ linkedDrive.Reads ∧
    (namedDisk 0x43).Place linkedDrive 0 1 ∧ ∃ e, (namedDisk 0x43).slot 0 1 = some e ∧
      Regular e ∧ e attrOffset ≠ attrLfn ∧
      (namedDisk 0x43).mfsGetLfnOfEntry 3 (some e) 0 1 1 linkedDrive = some (.noError, [0x41]) ∧
      cString [0x41] ≠ [] ∧
      ∀ earlier, ¬LongRun (mfsLfnChecksum e) 1
        ((namedDisk 0x43).slotsBefore linkedDrive 0 1 1 ++ earlier) (cString [0x41]) := by
  refine ⟨linkedDrive_inSync, linkedDrive_reads, namedDisk_place 0x43, _, rfl,
    ⟨by decide, by decide⟩, by decide, rfl, by decide, fun earlier hrun => ?_⟩
  have hslot : (namedDisk 0x43).slot 0 0 = some _ := rfl
  rw [DirDisk.slotsBefore, if_neg (by decide), DirDisk.slotsDown, DirDisk.slotsDown,
    List.append_nil, hslot, List.singleton_append] at hrun
  obtain ⟨-, hid, -⟩ := (longRun_last (by decide) ⟨rfl, by decide⟩).mp hrun
  exact absurd hid (by decide)

end Mqx.Mfs
