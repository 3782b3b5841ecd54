import Mqx.Mfs.Handle

/-!
# The sharing rule

A handle that can write is the only one on its directory entry. The rule is kept by the
calls that do not ask for a handle against it; those that do are not refused as they
should be.
-/

namespace Mqx.Mfs

variable {m : BitVec 16} {ro : Bool} {hs : List Handle}

/-- A handle open for writing is the only one on its slot. -/
def Exclusive (hs : List Handle) : Prop :=
  hs.Pairwise fun g h => g.On h.dirCluster h.dirIndex → ¬ Writes g.access ∧ ¬ Writes h.access

/-- A handle with this access mode on the slot would break the rule. -/
def Conflict (hs : List Handle) (access : BitVec 16) (slot : Slot) : Prop :=
  ∃ h ∈ hs, h.On slot.cluster slot.index ∧ (Writes access ∨ Writes h.access)

/-! ## Requests -/

inductive Request where
  | openFile (pathname : List Byte) (access : Byte) (calls : OpenCalls)
  | createFile (attr : Byte) (pathname : List Byte) (calls : CreateCalls)
  | closeFile (address : ℕ) (lock updated : MfsError)

/-- One call on a drive that is read only or not, with the contents of the memory at the
null pointer. -/
def step (m : BitVec 16) (ro : Bool) (hs : List Handle) : Request → Outcome
  | .openFile pathname access calls => mfsOpenFile m hs pathname access calls
  | .createFile attr pathname calls => mfsCreateFile ro hs attr pathname calls
  | .closeFile address lock updated => mfsCloseFile ro hs address lock updated

/-- The slot and the access mode a request gets to when nothing else is wrong with it. -/
def Request.target (ro : Bool) : Request → Option (Slot × BitVec 16)
  | .openFile pathname access calls =>
    match calls.found with
    | .error _ => none
    | .ok slot =>
      if pathname = [] ∨ calls.lock ≠ .noError ∨
          slot.entry.attr &&& (attrDirName ||| attrVolumeName) ≠ 0 ∨
          (slot.entry.attr &&& attrReadOnly ≠ 0 ∧ Writes (access.setWidth 16)) then none
      else some (slot, access.setWidth 16)
  | .createFile attr pathname calls =>
    match calls.created.2 with
    | none => none
    | some slot =>
      if pathname = [] ∨ ro = true ∨ calls.lock ≠ .noError ∨
          createAttr attr &&& attrVolumeName ≠ 0 then none
      else some (slot, createAccess attr)
  | .closeFile _ _ _ => none

/-- The request asks for a handle that breaks the rule. -/
def Violates (ro : Bool) (hs : List Handle) (q : Request) : Prop :=
  ∃ slot access, q.target ro = some (slot, access) ∧ Conflict hs access slot

/-- A refusal: no handle is returned, the list stays, and only handles on it were read. -/
structure Refused (hs : List Handle) (r : Outcome) : Prop where
  error : r.error = .sharingViolation
  handle : r.handle = none
  handles : r.handles = hs
  inspected : ∀ a ∈ r.inspected, ∃ h ∈ hs, a = some h.address

/-- Along the calls the rule holds, and every call against it is refused. -/
def Obeys (m : BitVec 16) (ro : Bool) : List Handle → List Request → Prop
  | hs, [] => Exclusive hs
  | hs, q :: rest =>
    Exclusive hs ∧ (Violates ro hs q → Refused hs (step m ro hs q)) ∧
      Obeys m ro (step m ro hs q).handles rest

/-- No call asks for a handle on an entry that is open when it or an open handle can
write. -/
def Compatible (m : BitVec 16) (ro : Bool) : List Handle → List Request → Prop
  | _, [] => True
  | hs, q :: rest => ¬ Violates ro hs q ∧ Compatible m ro (step m ro hs q).handles rest

/-! ## One call -/

theorem exists_on_of_find {cluster index : ℕ} {h : Handle} (hmem : h ∈ hs)
    (hon : h.On cluster index) : ∃ g, (mfsFindHandle cluster index hs).1 = some g := by
  induction hs with
  | nil => cases hmem
  | cons g rest ih =>
    rw [mfsFindHandle]
    by_cases hg : g.On cluster index
    · rw [if_pos hg]
      exact ⟨g, rfl⟩
    · rw [if_neg hg]
      apply ih
      rcases List.mem_cons.mp hmem with rfl | hrest
      · exact absurd hon hg
      · exact hrest

/-- A file that is open is never refused without a read through the null pointer. -/
theorem sharingError_inspected {access : BitVec 16} (g : Handle) :
    (sharingError m access (some g)).2 = [none] := by
  simp only [sharingError]
  split <;> rfl

theorem openFile_target {pathname : List Byte} {access : Byte} {c : OpenCalls} {slot : Slot}
    {a : BitVec 16} (h : (Request.openFile pathname access c).target ro = some (slot, a)) :
    pathname ≠ [] ∧ c.lock = .noError ∧ c.found = .ok slot ∧
      ¬ slot.entry.attr &&& (attrDirName ||| attrVolumeName) ≠ 0 ∧
      ¬ (slot.entry.attr &&& attrReadOnly ≠ 0 ∧ Writes (access.setWidth 16)) ∧
      a = access.setWidth 16 := by
  unfold Request.target at h
  dsimp only at h
  cases hfound : c.found with
  | error e =>
    rw [hfound] at h
    cases h
  | ok slot' =>
    rw [hfound] at h
    dsimp only at h
    split at h
    · cases h
    · rename_i hno
      cases h
      simp only [not_or, not_not] at hno
      obtain ⟨h₁, h₂, h₃, h₄⟩ := hno
      exact ⟨h₁, h₂, rfl, by simpa using h₃, h₄, rfl⟩

theorem createFile_target {attr : Byte} {pathname : List Byte} {c : CreateCalls} {slot : Slot}
    {a : BitVec 16} (h : (Request.createFile attr pathname c).target ro = some (slot, a)) :
    pathname ≠ [] ∧ ro = false ∧ c.lock = .noError ∧ c.created.2 = some slot ∧
      ¬ createAttr attr &&& attrVolumeName ≠ 0 ∧ a = createAccess attr := by
  unfold Request.target at h
  dsimp only at h
  cases hcreated : c.created.2 with
  | none =>
    rw [hcreated] at h
    cases h
  | some slot' =>
    rw [hcreated] at h
    dsimp only at h
    split at h
    · cases h
    · rename_i hno
      cases h
      simp only [not_or, not_not] at hno
      obtain ⟨h₁, h₂, h₃, h₄⟩ := hno
      exact ⟨h₁, by simpa using h₂, h₃, rfl, by simpa using h₄, rfl⟩

/-- No call against the rule is refused as it should be: opening reads through the null
pointer, and creating does not look at the rule. -/
theorem not_refused_of_violates {q : Request} (h : Violates ro hs q) :
    ¬ Refused hs (step m ro hs q) := by
  obtain ⟨slot, access, htarget, g, hmem, hon, -⟩ := h
  intro hrefused
  cases q with
  | openFile pathname access' c =>
    obtain ⟨hpath, hlock, hfound, hdir, hread, -⟩ := openFile_target htarget
    obtain ⟨g', hfind⟩ := exists_on_of_find hmem hon
    have hnull : (none : Option ℕ) ∈ (step m ro hs (.openFile pathname access' c)).inspected := by
      simp only [step, mfsOpenFile]
      rw [if_neg hpath, if_neg (not_not.mpr hlock), hfound]
      dsimp only
      rw [if_neg hdir, if_neg hread, hfind, sharingError_inspected]
      split
      · split <;> simp
      · simp
    obtain ⟨g'', -, hcontra⟩ := hrefused.inspected none hnull
    cases hcontra
  | createFile attr pathname c =>
    obtain ⟨hpath, hro, hlock, hcreated, hvol, -⟩ := createFile_target htarget
    have herror := hrefused.error
    have hhandle := hrefused.handle
    simp only [step, mfsCreateFile] at herror hhandle
    rw [if_neg hpath, if_neg (by simp [hro]), if_neg (not_not.mpr hlock), hcreated] at herror hhandle
    dsimp only at herror hhandle
    rw [if_neg hvol] at herror hhandle
    cases hblock : c.block with
    | none =>
      rw [hblock] at herror
      cases herror
    | some block =>
      rw [hblock] at hhandle
      cases hhandle
  | closeFile address lock updated => cases htarget

/-! ## The list of handles -/

/-- The part of a handle the rule is about. -/
def Handle.key (h : Handle) : ℕ × ℕ × BitVec 16 := (h.dirCluster, h.dirIndex, h.access)

theorem exclusive_iff_keys : Exclusive hs ↔ (hs.map Handle.key).Pairwise fun g h =>
    (g.1 = h.1 ∧ g.2.1 = h.2.1) → ¬ Writes g.2.2 ∧ ¬ Writes h.2.2 := by
  rw [List.pairwise_map]
  exact Iff.rfl

theorem Exclusive.of_keys {hs' : List Handle} (h : Exclusive hs)
    (hkeys : hs'.map Handle.key = hs.map Handle.key) : Exclusive hs' := by
  rw [exclusive_iff_keys, hkeys]
  exact exclusive_iff_keys.mp h

theorem restart_keys (cluster index : ℕ) (hs : List Handle) :
    (restart cluster index hs).map Handle.key = hs.map Handle.key := by
  rw [restart, List.map_map]
  apply List.map_congr_left
  intro h _
  simp only [Function.comp_apply]
  split <;> rfl

/-- Truncating and setting the attribute change no key. -/
theorem created_keys {attr : Byte} {slot : Slot} {c : CreateCalls} {h : Handle} :
    (setAttr (createAttr attr) c.updatedAttr
      (if c.created.1 = .fileExists then truncate attr slot h hs c
        else ⟨c.created.1, h, hs, []⟩)).others.map Handle.key = hs.map Handle.key ∧
    (setAttr (createAttr attr) c.updatedAttr
      (if c.created.1 = .fileExists then truncate attr slot h hs c
        else ⟨c.created.1, h, hs, []⟩)).handle.key = h.key := by
  have hset : ∀ r : Created, (setAttr (createAttr attr) c.updatedAttr r).others = r.others ∧
      (setAttr (createAttr attr) c.updatedAttr r).handle.key = r.handle.key := by
    intro r
    unfold setAttr
    split <;> exact ⟨rfl, rfl⟩
  rw [(hset _).1, (hset _).2]
  split
  · unfold truncate
    split
    · dsimp only
      split
      · exact ⟨restart_keys _ _ _, rfl⟩
      · exact ⟨rfl, rfl⟩
    · exact ⟨rfl, rfl⟩
  · exact ⟨rfl, rfl⟩

/-- What a call does to the list: nothing, a handle more, or a handle less. -/
theorem step_handles (m : BitVec 16) (ro : Bool) (hs : List Handle) (q : Request) :
    (step m ro hs q).handles = hs ∨
    (∃ slot access others g, q.target ro = some (slot, access) ∧
      (step m ro hs q).handles = others ++ [g] ∧ others.map Handle.key = hs.map Handle.key ∧
      g.key = (slot.cluster, slot.index, access)) ∨
    (step m ro hs q).handles.Sublist hs := by
  cases q with
  | openFile pathname access c =>
    simp only [step, mfsOpenFile]
    by_cases hpath : pathname = []
    · exact .inl (by rw [if_pos hpath])
    by_cases hlock : c.lock = .noError
    swap
    · exact .inl (by rw [if_neg hpath, if_pos hlock])
    rw [if_neg hpath, if_neg (not_not.mpr hlock)]
    cases hfound : c.found with
    | error e => exact .inl rfl
    | ok slot =>
      dsimp only
      split
      · exact .inl rfl
      · rename_i hdir
        split
        · exact .inl rfl
        · rename_i hread
          split
          · cases c.block with
            | none => exact .inl rfl
            | some block =>
              refine .inr (.inl ⟨slot, access.setWidth 16, hs, _, ?_, rfl, rfl, rfl⟩)
              rw [Request.target, hfound]
              dsimp only
              rw [if_neg]
              rintro (h | h | h | h)
              · exact hpath h
              · exact h hlock
              · exact hdir h
              · exact hread h
          · exact .inl rfl
  | createFile attr pathname c =>
    simp only [step, mfsCreateFile]
    by_cases hpath : pathname = []
    · exact .inl (by rw [if_pos hpath])
    rw [if_neg hpath]
    split
    · exact .inl rfl
    · rename_i hro
      split
      · exact .inl rfl
      · rename_i hlock
        cases hcreated : c.created.2 with
        | none => exact .inl rfl
        | some slot =>
          dsimp only
          split
          · exact .inl rfl
          · rename_i hvol
            cases c.block with
            | none => exact .inl rfl
            | some block =>
              refine .inr (.inl ⟨slot, createAccess attr, _, _, ?_, rfl, ?_, ?_⟩)
              · rw [Request.target, hcreated]
                dsimp only
                rw [if_neg]
                rintro (h | h | h | h)
                · exact hpath h
                · exact hro h
                · exact hlock h
                · exact hvol h
              · exact created_keys.1
              · exact created_keys.2
  | closeFile address lock updated =>
    right
    right
    simp only [step, mfsCloseFile]
    split
    · exact List.Sublist.refl _
    · exact List.eraseP_sublist

theorem Exclusive.step {q : Request} (h : Exclusive hs) (hq : ¬ Violates ro hs q) :
    Exclusive (step m ro hs q).handles := by
  rcases step_handles m ro hs q with heq | ⟨slot, access, others, g, htarget, heq, hkeys, hg⟩ | hsub
  · rw [heq]
    exact h
  · rw [heq, exclusive_iff_keys, List.map_append, List.pairwise_append, hkeys]
    refine ⟨exclusive_iff_keys.mp h, List.pairwise_singleton _ _, ?_⟩
    intro a ha b hb hsame
    obtain ⟨g', hmem, rfl⟩ := List.mem_map.mp ha
    obtain rfl : b = g.key := by simpa using hb
    rw [hg] at hsame ⊢
    constructor
    · exact fun hw => hq ⟨slot, access, htarget, g', hmem, hsame, .inr hw⟩
    · exact fun hw => hq ⟨slot, access, htarget, g', hmem, hsame, .inl hw⟩
  · exact List.Pairwise.sublist hsub h

/-! ## All calls -/

theorem obeys_iff_compatible (m : BitVec 16) (ro : Bool) (qs : List Request) :
    ∀ hs, Exclusive hs → (Obeys m ro hs qs ↔ Compatible m ro hs qs) := by
  induction qs with
  | nil =>
    intro hs h
    exact ⟨fun _ => trivial, fun _ => h⟩
  | cons q rest ih =>
    intro hs h
    constructor
    · rintro ⟨-, hrefused, hrest⟩
      have hq : ¬ Violates ro hs q := fun hv => not_refused_of_violates hv (hrefused hv)
      exact ⟨hq, (ih _ (h.step hq)).mp hrest⟩
    · rintro ⟨hq, hrest⟩
      exact ⟨h, fun hv => absurd hv hq, (ih _ (h.step hq)).mpr hrest⟩

/-- From a drive without open files, the sharing rule is obeyed along the calls exactly
when none of them asks for a handle against it. -/
theorem sharing_rule_iff (m : BitVec 16) (ro : Bool) (qs : List Request) :
    Obeys m ro [] qs ↔ Compatible m ro [] qs :=
  obeys_iff_compatible m ro qs [] List.Pairwise.nil

/-- A call that opens the archive file in slot 2 of the root directory. -/
def openSlotTwo (access : Byte) (block : ℕ) : Request :=
  .openFile [0x41] access ⟨.noError, .ok ⟨⟨attrArchive, 5, 100⟩, 0, 2⟩, some block⟩

/-- The file is opened for reading while it is open for reading and writing, when the
memory behind the null pointer holds zero. -/
theorem reader_beside_writer : ¬ ∀ m ro qs, Obeys m ro [] qs := by
  intro hall
  have hend : Exclusive (step 0 false (step 0 false [] (openSlotTwo 2 0x1000)).handles
      (openSlotTwo 0 0x2000)).handles :=
    (hall 0 false [openSlotTwo 2 0x1000, openSlotTwo 0 0x2000]).2.2.2.2
  unfold Exclusive at hend
  revert hend
  decide

end Mqx.Mfs
