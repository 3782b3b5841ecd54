import Mathlib.Data.List.GetD
import Mathlib.Data.List.TakeWhile
import Mqx.Rtcs.InetText

/-!
# The reader of addresses of version 6

`inet_pton6` accepts exactly the texts that stand for an address. The loop is followed from one
group of digits to the next: the bytes stored so far are a list, behind which the buffer is zero.
-/

namespace Mqx
namespace Rtcs
namespace Inet

variable {g t l k o bs r rb rest : List UInt8} {v : ℕ} {c : UInt8} {d : Bool} {cp : Option ℕ}
  {st : Pton6}

-- The equations are generated once, before the proofs that rewrite with them.
section
attribute [local simp] pton6Loop Pton6.flush Pton6.finish shiftBytes
end

/-- A buffer of zeros with a list at its start. -/
def image (l : List UInt8) : ℕ → UInt8 := fun i => l.getD i 0

theorem image_append (l k : List UInt8) (i : ℕ) :
    image (l ++ k) i = if i < l.length then image l i else image k (i - l.length) := by
  rw [image, image, image]
  split_ifs with h
  · rw [List.getD_append _ _ _ _ h]
  · rw [List.getD_append_right _ _ _ _ (by omega)]

theorem image_of_le (i : ℕ) (h : l.length ≤ i) : image l i = 0 :=
  List.getD_eq_default _ _ h

/-- The state in front of a group, with the bytes stored so far. -/
def atGroup (l : List UInt8) (cp : Option ℕ) (t : List UInt8) : Pton6 :=
  ⟨image l, l.length, cp, t, 0, 0⟩

/-- What the end of `inet_pton6` looks at. -/
def Pton6.out (st : Pton6) : (ℕ → UInt8) × ℕ × Option ℕ := (st.tmp, st.tp, st.colonp)

/-- What is stored, from a group on. -/
def run (l : List UInt8) (cp : Option ℕ) (t : List UInt8) :
    Option ((ℕ → UInt8) × ℕ × Option ℕ) :=
  ((pton6Loop (atGroup l cp t) t).bind Pton6.flush).map Pton6.out

/-- The bytes `l` stored. -/
def storedAs (l : List UInt8) (cp : Option ℕ) : (ℕ → UInt8) × ℕ × Option ℕ :=
  (image l, l.length, cp)

theorem image_putVal (ht : st.tmp = image l) (hp : st.tp = l.length) :
    st.putVal.tmp = image (l ++ pair st.val) := by
  funext i
  rw [image_append]
  simp only [Pton6.putVal, ht, hp, Function.update_apply]
  rcases Nat.lt_or_ge i l.length with h | h
  · rw [if_neg (by omega), if_neg (by omega), if_pos h]
  · rw [if_neg (show ¬ i < l.length by omega)]
    obtain ⟨j, rfl⟩ := Nat.exists_eq_add_of_le h
    rw [Nat.add_sub_cancel_left]
    rcases j with _ | _ | j
    · rw [if_neg (by omega), if_pos (by omega)]
      rfl
    · rw [if_pos (by omega)]
      rfl
    · rw [if_neg (by omega), if_neg (by omega), image_of_le _ (by omega), image_of_le]
      simp [pair]

theorem image_putLong (ht : st.tmp = image l) (hp : st.tp = l.length) (hk : k.length = 4) :
    (st.putLong k).tmp = image (l ++ k) := by
  funext i
  rw [image_append]
  simp only [Pton6.putLong, ht, hp]
  rcases Nat.lt_or_ge i l.length with h | h
  · rw [if_neg (by omega), if_pos h]
  · rw [if_neg (show ¬ i < l.length by omega)]
    split_ifs with h4
    · rfl
    · rw [image_of_le _ (by omega), image_of_le _ (by omega)]

/-! ## Digits -/

theorem xdigit_eq (c : UInt8) : xdigit c = hexDigit c := by
  have h : ∀ n : Fin 256, xdigit (UInt8.ofNat n) = hexDigit (UInt8.ofNat n) := by
    decide +kernel
  simpa using h ⟨c.toNat, c.toNat_lt⟩

theorem hexDigit_colon : hexDigit colonChar = none := by decide

theorem hexDigit_dot : hexDigit dotChar = none := by decide

theorem hexDigit_lt {n : ℕ} (h : hexDigit c = some n) : n < 16 := by
  rw [hexDigit] at h
  simp only [UInt8.le_iff_toNat_le] at h
  have h57 : (57 : UInt8).toNat = 57 := rfl
  have h102 : (102 : UInt8).toNat = 102 := rfl
  have h70 : (70 : UInt8).toNat = 70 := rfl
  split_ifs at h <;> rw [Option.some.injEq] at h <;> omega

/-- Digits go into the value, but no more than four. -/
theorem pton6Loop_digits (hs : st.seenXdigits ≤ 4)
    (h : readNumeral 16 hexDigit st.val g = some v) :
    pton6Loop st (g ++ rest) =
      if st.seenXdigits + g.length ≤ 4 then
        pton6Loop { st with val := v, seenXdigits := st.seenXdigits + g.length } rest
      else none := by
  induction g generalizing st with
  | nil =>
    rw [readNumeral, Option.some.injEq] at h
    rw [List.length_nil, Nat.add_zero, if_pos hs, ← h, List.nil_append]
  | cons c g ih =>
    obtain ⟨n, hn, hrest⟩ := readNumeral_cons h
    have hval : st.val <<< 4 ||| n = st.val * 16 + n := by
      rw [← Nat.shiftLeft_add_eq_or_of_lt (hexDigit_lt hn), Nat.shiftLeft_eq]
    rw [List.cons_append, pton6Loop, xdigit_eq, hn]
    simp only [hval, List.length_cons]
    by_cases hfour : st.seenXdigits + 1 > 4
    · rw [if_pos hfour, if_neg (by omega)]
    · rw [if_neg hfour, ih (by simpa using hfour) hrest]
      simp only [Nat.add_assoc, Nat.add_comm 1]

theorem HexGroup.length_pos (h : HexGroup g v) : 0 < g.length :=
  List.length_pos_iff.mpr h.ne_nil

/-- A group of digits is read into the value. -/
theorem pton6Loop_group (h : HexGroup g v) (hs : st.seenXdigits = 0) (hv : st.val = 0) :
    pton6Loop st (g ++ rest) = pton6Loop { st with val := v, seenXdigits := g.length } rest := by
  rw [pton6Loop_digits (by omega) (hv ▸ h.value), if_pos (by rw [hs]; have := h.length_le; omega),
    hs, Nat.zero_add]

/-! ## From group to group -/

theorem flush_none (hs : st.seenXdigits ≠ 0) (htp : ¬ st.tp + 2 ≤ 16) : st.flush = none := by
  rw [Pton6.flush, if_pos hs, if_pos (by omega)]

theorem flush_some (hs : st.seenXdigits ≠ 0) (htp : st.tp + 2 ≤ 16) :
    st.flush = some st.putVal := by
  rw [Pton6.flush, if_pos hs, if_neg (by omega)]

/-- The colon behind a group. -/
theorem pton6Loop_colon_none (hs : st.seenXdigits ≠ 0) (hend : t = [] ∨ ¬ st.tp + 2 ≤ 16) :
    pton6Loop st (colonChar :: t) = none := by
  rw [pton6Loop, xdigit_eq, hexDigit_colon]
  simp only
  rw [if_pos trivial, if_neg hs]
  split_ifs with ht htp
  · rfl
  · rfl
  · exact absurd hend (by simp [ht]; omega)

theorem pton6Loop_colon_some (hs : st.seenXdigits ≠ 0) (ht : t ≠ []) (htp : st.tp + 2 ≤ 16) :
    pton6Loop st (colonChar :: t) = pton6Loop { st with curtok := t }.putVal t := by
  rw [pton6Loop, xdigit_eq, hexDigit_colon]
  simp only
  rw [if_pos trivial, if_neg hs, if_neg ht, if_neg (by omega)]

/-- The colon that is not behind a group. -/
theorem pton6Loop_colons (hs : st.seenXdigits = 0) :
    pton6Loop st (colonChar :: t) =
      if st.colonp ≠ none then none
      else pton6Loop { st with curtok := t, colonp := some st.tp } t := by
  rw [pton6Loop, xdigit_eq, hexDigit_colon]
  simp only
  rw [if_pos trivial, if_pos hs]

theorem pton6Loop_dot_none (htp : ¬ st.tp + 4 ≤ 16) : pton6Loop st (dotChar :: t) = none := by
  have hne : dotChar ≠ colonChar := by decide
  rw [pton6Loop, xdigit_eq, hexDigit_dot]
  simp only
  rw [if_neg hne, if_neg (by simp [htp])]

theorem pton6Loop_dot_some (htp : st.tp + 4 ≤ 16) :
    pton6Loop st (dotChar :: t) = (inetPton4 st.curtok).map st.putLong := by
  have hne : dotChar ≠ colonChar := by decide
  rw [pton6Loop, xdigit_eq, hexDigit_dot]
  simp only
  rw [if_neg hne, if_pos ⟨trivial, htp⟩]
  cases inetPton4 st.curtok <;> rfl

theorem pton6Loop_other (hx : hexDigit c = none) (hcolon : c ≠ colonChar) (hdot : c ≠ dotChar) :
    pton6Loop st (c :: t) = none := by
  rw [pton6Loop, xdigit_eq, hx]
  simp only
  rw [if_neg hcolon, if_neg (by simp [hdot])]

theorem run_nil : run l cp [] = some (storedAs l cp) := rfl

theorem run_group (h : HexGroup g v) :
    run l cp g = if l.length + 2 ≤ 16 then some (storedAs (l ++ pair v) cp) else none := by
  have hloop := @pton6Loop_group g [] v (atGroup l cp g) h rfl rfl
  rw [List.append_nil, pton6Loop] at hloop
  have hpos : g.length ≠ 0 := h.length_pos.ne'
  rw [run, hloop, Option.bind_some]
  by_cases hfits : l.length + 2 ≤ 16
  · rw [flush_some hpos hfits, if_pos hfits, Option.map_some, Pton6.out, storedAs,
      @image_putVal l _ rfl rfl, List.length_append]
    rfl
  · rw [flush_none hpos hfits, if_neg hfits, Option.map_none]

/-- A group and the colon behind it. -/
theorem run_group_colon (h : HexGroup g v) :
    run l cp (g ++ colonChar :: t) =
      if t = [] ∨ ¬ l.length + 2 ≤ 16 then none else run (l ++ pair v) cp t := by
  have hloop := @pton6Loop_group g (colonChar :: t) v (atGroup l cp (g ++ colonChar :: t)) h rfl rfl
  have hpos : g.length ≠ 0 := h.length_pos.ne'
  have hstate : ∀ st : Pton6, st.tmp = image l → st.tp = l.length → st.colonp = cp →
      st.val = v → st.curtok = t → st.putVal = atGroup (l ++ pair v) cp t := by
    intro st htmp htp hcp hv hcur
    have himage := image_putVal htmp htp
    rw [hv] at himage
    rw [Pton6.putVal, atGroup, Pton6.mk.injEq]
    refine ⟨himage, ?_, hcp, hcur, rfl, rfl⟩
    rw [htp, List.length_append]
    rfl
  rw [run, hloop]
  split_ifs with hend
  · rw [pton6Loop_colon_none hpos hend]
    rfl
  · rw [not_or, not_not] at hend
    rw [pton6Loop_colon_some hpos hend.1 hend.2, hstate _ rfl rfl rfl rfl rfl]
    rfl

theorem run_colon : run l none (colonChar :: t) = run l (some l.length) t := by
  rw [run, pton6Loop_colons rfl, if_neg (by simp [atGroup])]
  rfl

theorem run_colon_again {p : ℕ} : run l (some p) (colonChar :: t) = none := by
  rw [run, pton6Loop_colons rfl, if_pos (by simp [atGroup])]
  rfl

/-! ## A decimal end -/

theorem hexDigit_of_decimalDigit {n : ℕ} (h : decimalDigit c = some n) : hexDigit c = some n := by
  rw [decimalDigit] at h
  split_ifs at h with hc
  rw [hexDigit, if_pos hc, h]

theorem Decimal.length_le (h : Decimal g v) : g.length ≤ 3 := by
  obtain ⟨c, g', rfl⟩ := List.exists_cons_of_ne_nil h.ne_nil
  obtain ⟨n, hn, hrest⟩ := readNumeral_cons h.value
  by_cases hzero : n = 0
  · have hc := decimalDigit_zero (hzero ▸ hn)
    rw [h.canonical (by rw [List.head?_cons, hc])]
    simp
  · by_contra hlong
    rw [List.length_cons] at hlong
    have hmul := mul_pow_le_of_readNumeral hrest
    have hpow : 10 ^ 3 ≤ 10 ^ g'.length := Nat.pow_le_pow_right (by omega) (by omega)
    have hone : 1 * 10 ^ g'.length ≤ (0 * 10 + n) * 10 ^ g'.length :=
      Nat.mul_le_mul_right _ (by omega)
    have hle := h.le
    omega

theorem Decimal.exists_hex (h : Decimal g v) : ∃ n, readNumeral 16 hexDigit 0 g = some n := by
  refine readNumeral_isSome ?_ 0
  intro c hc
  obtain ⟨n, hn⟩ := Option.isSome_iff_exists.mp (isSome_of_readNumeral h.value c hc)
  rw [hexDigit_of_decimalDigit hn]
  rfl

/-- The first number of a decimal end, up to its dot. -/
theorem Dotted.first (h : Dotted t o) : ∃ g v t', Decimal g v ∧ t = g ++ dotChar :: t' := by
  obtain ⟨hoctets, hlen⟩ := h
  cases hoctets with
  | one h => simp at hlen
  | more h ht => exact ⟨_, _, _, h, rfl⟩

theorem run_dotted (h : Dotted t o) :
    run l cp t =
      if l.length + 4 ≤ 16 then some (storedAs (l ++ o.reverse) cp) else none := by
  obtain ⟨g, v, t', hg, ht⟩ := h.first
  obtain ⟨n, hn⟩ := hg.exists_hex
  have hshort := hg.length_le
  have hlen : o.reverse.length = 4 := by rw [List.length_reverse, h.2]
  have hread : inetPton4 t = some o.reverse := inetPton4_iff.mpr ⟨o, h, rfl⟩
  have hloop := @pton6Loop_digits g (dotChar :: t') n (atGroup l cp t) (by simp [atGroup]) hn
  rw [if_pos (by simp only [atGroup]; omega), ← ht] at hloop
  rw [run, hloop]
  split_ifs with hfits
  · have himage :=
      @image_putLong l o.reverse ⟨image l, l.length, cp, t, 0 + g.length, n⟩ rfl rfl hlen
    rw [pton6Loop_dot_some hfits]
    simp only [atGroup]
    rw [hread, Option.map_some, Option.bind_some, Pton6.flush, if_neg (by simp [Pton6.putLong]),
      Option.map_some, Pton6.out, himage, storedAs, List.length_append, hlen]
    rfl
  · rw [pton6Loop_dot_none hfits]
    rfl

/-- What a text that is read starts with. -/
theorem run_inv {x} (h : run l cp t = some x) :
    t = [] ∨ (∃ t', t = colonChar :: t') ∨ (∃ v, HexGroup t v) ∨
      (∃ g v t', HexGroup g v ∧ t = g ++ colonChar :: t') ∨ ∃ o, Dotted t o := by
  obtain ⟨g, rest, rfl, hdigits, hhead⟩ : ∃ g rest, t = g ++ rest ∧
      (∀ c ∈ g, (hexDigit c).isSome) ∧ ∀ c ∈ rest.head?, hexDigit c = none := by
    refine ⟨t.takeWhile fun c => (hexDigit c).isSome, t.dropWhile fun c => (hexDigit c).isSome,
      List.takeWhile_append_dropWhile.symm, ?_, ?_⟩
    · intro c hc
      exact @List.mem_takeWhile_imp _ (fun c => (hexDigit c).isSome) t c hc
    intro c hc
    have hnot := List.head?_dropWhile_not (fun c => (hexDigit c).isSome) t
    rw [Option.mem_def] at hc
    rw [hc] at hnot
    simpa using hnot
  obtain ⟨v, hv⟩ := @readNumeral_isSome _ 16 hexDigit g hdigits 0
  have hloop := @pton6Loop_digits g rest v (atGroup l cp (g ++ rest)) (by simp [atGroup]) hv
  rw [run, hloop] at h
  split_ifs at h with hfour
  · simp only [atGroup, Nat.zero_add] at hfour
    cases rest with
    | nil =>
      rw [List.append_nil]
      rcases eq_or_ne g [] with hg | hg
      · exact Or.inl hg
      · exact Or.inr (Or.inr (Or.inl ⟨v, hg, hfour, hv⟩))
    | cons c rest =>
      have hc : hexDigit c = none := hhead c rfl
      by_cases hcolon : c = colonChar
      · subst hcolon
        rcases eq_or_ne g [] with rfl | hg
        · exact Or.inr (Or.inl ⟨rest, rfl⟩)
        · exact Or.inr (Or.inr (Or.inr (Or.inl ⟨g, v, rest, ⟨hg, hfour, hv⟩, rfl⟩)))
      · by_cases hdot : c = dotChar
        · subst hdot
          by_cases hfits : l.length + 4 ≤ 16
          · rw [pton6Loop_dot_some hfits] at h
            cases hread : inetPton4 (g ++ dotChar :: rest) with
            | none =>
              simp only [atGroup] at h
              rw [hread] at h
              cases h
            | some bytes =>
              obtain ⟨o, ho, -⟩ := inetPton4_iff.mp hread
              exact Or.inr (Or.inr (Or.inr (Or.inr ⟨o, ho⟩)))
          · rw [pton6Loop_dot_none hfits] at h
            cases h
        · rw [pton6Loop_other hc hcolon hdot] at h
          cases h
  · cases h

/-! ## Whole texts -/

/-- The bytes as the source stores them: those of a decimal end in the order of the host. -/
def swapTail (d : Bool) (bs : List UInt8) : List UInt8 :=
  if d then bs.take (bs.length - 4) ++ (bs.drop (bs.length - 4)).reverse else bs

@[simp] theorem swapTail_false : swapTail false bs = bs := rfl

@[simp] theorem swapTail_length : (swapTail d bs).length = bs.length := by
  cases d with
  | false => rfl
  | true =>
    rw [swapTail, if_pos rfl, List.length_append, List.length_reverse, ← List.length_append,
      List.take_append_drop]

theorem swapTail_append (h : d = true → 4 ≤ bs.length) :
    swapTail d (l ++ bs) = l ++ swapTail d bs := by
  cases d with
  | false => rfl
  | true =>
    have hfour := h rfl
    rw [swapTail, swapTail, if_pos rfl, if_pos rfl, List.length_append,
      Nat.add_sub_assoc hfour, List.take_length_add_append, List.drop_length_add_append,
      List.append_assoc]

theorem swapTail_four (h : o.length = 4) : swapTail true o = o.reverse := by
  rw [swapTail, if_pos rfl, h]
  rfl

theorem Tail.four_le (h : Tail t bs d) (hd : d = true) : 4 ≤ bs.length := by
  induction h with
  | last h => cases hd
  | dotted h => rw [h.2]
  | cons h ht ih =>
    rw [List.length_append]
    exact Nat.le_add_left_of_le (ih hd)

theorem Part.four_le (h : Part t bs d) (hd : d = true) : 4 ≤ bs.length := by
  rcases h with ⟨-, -, rfl⟩ | h
  · cases hd
  · exact h.four_le hd

theorem Tail.ne_nil (h : Tail t bs d) : t ≠ [] := by
  cases h with
  | last h => exact h.ne_nil
  | dotted h =>
    obtain ⟨g, v, t', -, rfl⟩ := h.first
    simp
  | cons h ht => simp

theorem run_tail (h : Tail t bs d) (hfits : l.length + bs.length ≤ 16) :
    run l cp t = some (storedAs (l ++ swapTail d bs) cp) := by
  induction h generalizing l with
  | last h =>
    rw [run_group h, if_pos (by simpa [pair] using hfits), swapTail_false]
  | dotted h =>
    rw [h.2] at hfits
    rw [run_dotted h, if_pos hfits, swapTail_four h.2]
  | @cons g t bs v d h ht ih =>
    have hpair : (pair v).length = 2 := rfl
    rw [List.length_append] at hfits
    rw [run_group_colon h, if_neg (by simp only [ht.ne_nil, false_or]; omega),
      ih (by rw [List.length_append]; omega), List.append_assoc, swapTail_append ht.four_le]

theorem run_part (h : Part t bs d) (hfits : l.length + bs.length ≤ 16) :
    run l cp t = some (storedAs (l ++ swapTail d bs) cp) := by
  rcases h with ⟨rfl, rfl, rfl⟩ | h
  · rw [run_nil, swapTail_false, List.append_nil]
  · exact run_tail h hfits

theorem run_lead {lt lb : List UInt8} (h : Lead lt lb) (hfits : l.length + lb.length ≤ 16) :
    run l none (lt ++ colonChar :: t) = run (l ++ lb) (some (l.length + lb.length)) t := by
  induction h generalizing l with
  | nil =>
    rw [List.nil_append, run_colon, List.append_nil]
    rfl
  | @cons g t' bs v h ht ih =>
    have hpair : (pair v).length = 2 := rfl
    rw [List.length_append] at hfits
    rw [List.append_assoc, List.cons_append, run_group_colon h, if_neg (by simp; omega),
      ih (by rw [List.length_append]; omega), List.append_assoc, List.length_append,
      List.length_append, Nat.add_assoc]

/-- What a text that is read consists of. -/
theorem run_sound {x} (hl : l.length ≤ 16) (h : run l cp t = some x) :
    (∃ bs d, Part t bs d ∧ l.length + bs.length ≤ 16 ∧
        x = storedAs (l ++ swapTail d bs) cp) ∨
      cp = none ∧ ∃ lt lb r rb d, t = lt ++ colonChar :: r ∧ Lead lt lb ∧ Part r rb d ∧
        l.length + lb.length + rb.length ≤ 16 ∧
        x = storedAs (l ++ lb ++ swapTail d rb) (some (l.length + lb.length)) := by
  induction hn : t.length using Nat.strong_induction_on generalizing l cp t with
  | h n ih =>
    rcases run_inv h with rfl | ⟨t, rfl⟩ | ⟨v, hg⟩ | ⟨g, v, t, hg, rfl⟩ | ⟨o, ho⟩
    · rw [run_nil, Option.some.injEq] at h
      exact Or.inl ⟨[], false, Or.inl ⟨rfl, rfl, rfl⟩, hl, by rw [← h]; simp⟩
    · cases cp with
      | some p =>
        rw [run_colon_again] at h
        cases h
      | none =>
        rw [run_colon] at h
        rcases ih t.length (by rw [← hn, List.length_cons]; omega) hl h rfl with
          ⟨bs, d, hpart, hfits, rfl⟩ | ⟨hcp, -⟩
        · refine Or.inr ⟨rfl, [], [], t, bs, d, rfl, Lead.nil, hpart, hfits, ?_⟩
          rw [List.append_nil]
          rfl
        · cases hcp
    · rw [run_group hg] at h
      split_ifs at h with hfits
      exact Or.inl ⟨pair v, false, Or.inr (Tail.last hg), hfits, (Option.some.inj h).symm⟩
    · have hpair : (pair v).length = 2 := rfl
      rw [run_group_colon hg] at h
      split_ifs at h with hend
      rw [not_or, not_not] at hend
      have hlt : t.length < n := by
        rw [← hn, List.length_append, List.length_cons]
        omega
      rcases ih t.length hlt (by rw [List.length_append]; omega) h rfl with
        ⟨bs, d, hpart, hfits, rfl⟩ | ⟨rfl, lt, lb, r, rb, d, rfl, hlead, hpart, hfits, rfl⟩
      · have htail : Tail t bs d := hpart.resolve_left fun hnil => hend.1 hnil.1
        rw [List.length_append] at hfits
        refine Or.inl ⟨pair v ++ bs, d, Or.inr (Tail.cons hg htail), ?_, ?_⟩
        · rw [List.length_append]
          omega
        · rw [swapTail_append htail.four_le, List.append_assoc]
      · rw [List.length_append] at hfits
        refine Or.inr ⟨rfl, g ++ colonChar :: lt, pair v ++ lb, r, rb, d, ?_, Lead.cons hg hlead,
          hpart, ?_, ?_⟩
        · rw [List.append_assoc, List.cons_append]
        · rw [List.length_append]
          omega
        · rw [List.length_append, List.length_append]
          simp only [List.append_assoc, Nat.add_assoc]
    · have hlen := ho.2
      rw [run_dotted ho] at h
      split_ifs at h with hfits
      refine Or.inl ⟨o, true, Or.inr (Tail.dotted ho), by rw [hlen]; exact hfits, ?_⟩
      rw [swapTail_four hlen, ← Option.some.inj h]

/-! ## The shift -/

theorem map_image (h : l.length = 16) : (List.range 16).map (image l) = l := by
  apply List.ext_getElem
  · rw [List.length_map, List.length_range, h]
  · intro i hi hi'
    rw [List.getElem_map, List.getElem_range, image, List.getD_eq_getElem _ _ hi']

/-- The first rounds of the shift: as many bytes are at the end, and zeros where they were. -/
theorem shiftBytes_eq {p n i j : ℕ} (hp : p + n = l.length) (hl : l.length < 16) (hi : i ≤ n)
    (hj : j < 16) :
    shiftBytes (image l) p n i j =
      if 16 - i ≤ j then image l (j - (16 - l.length))
      else if l.length - i ≤ j then 0 else image l j := by
  induction i generalizing j with
  | zero =>
    rw [shiftBytes, if_neg (by omega)]
    split_ifs with h
    · exact image_of_le _ (by omega)
    · rfl
  | succ i ih =>
    have hplace : shiftBytes (image l) p n i (p + (n - (i + 1))) =
        image l (16 - (i + 1) - (16 - l.length)) := by
      rw [ih (by omega) (by omega), if_neg (by omega), if_neg (by omega)]
      congr 1
      omega
    rw [shiftBytes]
    simp only [Function.update_apply]
    rcases Nat.lt_trichotomy j (p + (n - (i + 1))) with hlt | heq | hgt
    · rw [if_neg (by omega), if_neg (by omega), ih (by omega) hj]
      rw [if_neg (by omega), if_neg (by omega), if_neg (by omega), if_neg (by omega)]
    · rw [if_pos heq, if_neg (by omega), if_pos (by omega)]
    · rw [if_neg (by omega)]
      by_cases hend : j = 16 - (i + 1)
      · rw [if_pos hend, hplace, if_pos (by omega), hend]
      · rw [if_neg hend, ih (by omega) hj]
        by_cases hlast : 16 - i ≤ j
        · rw [if_pos hlast, if_pos (by omega)]
        · rw [if_neg hlast, if_pos (by omega), if_neg (by omega), if_pos (by omega)]

theorem filled_length {lb rb : List UInt8} (h : lb.length + rb.length ≤ 16) :
    (filled lb rb).length = 16 := by
  rw [filled, List.length_append, List.length_append, List.length_replicate]
  omega

/-- The bytes behind the two colons are at the end of the address. -/
theorem map_shiftBytes {lb rb : List UInt8} (h : lb.length + rb.length < 16) :
    (List.range 16).map (shiftBytes (image (lb ++ rb)) lb.length rb.length rb.length) =
      filled lb rb := by
  have hlen : (lb ++ rb).length = lb.length + rb.length := List.length_append
  have hzero : ∀ n i, image (List.replicate n 0) i = 0 := by
    intro n i
    simp [image]
  rw [← @map_image (filled lb rb) (filled_length h.le)]
  refine List.map_congr_left fun j hj => ?_
  rw [List.mem_range] at hj
  rw [shiftBytes_eq (by omega) (by omega) (le_refl _) hj, filled, image_append, image_append,
    image_append, image_append, hlen, List.length_append, List.length_replicate, hzero]
  by_cases hlast : 16 - rb.length ≤ j
  · rw [if_pos hlast, if_neg (by omega), if_neg (by omega)]
    congr 1
    omega
  · rw [if_neg hlast]
    by_cases hzeros : lb.length ≤ j
    · rw [if_pos (by omega), if_pos (by omega), if_neg (by omega)]
    · rw [if_neg (by omega), if_pos (by omega), if_pos (by omega), if_pos (by omega)]

/-- The end of `inet_pton6` on what is stored. -/
def finishOut (x : (ℕ → UInt8) × ℕ × Option ℕ) : Option (List UInt8) :=
  Pton6.finish ⟨x.1, x.2.1, x.2.2, [], 0, 0⟩

theorem pton6From_eq : pton6From t = (run [] none t).bind finishOut := by
  rw [pton6From, run, show atGroup [] none t = ⟨fun _ => 0, 0, none, t, 0, 0⟩ from rfl]
  cases (pton6Loop ⟨fun _ => 0, 0, none, t, 0, 0⟩ t).bind Pton6.flush <;> rfl

theorem finishOut_none :
    finishOut (storedAs l none) = if l.length = 16 then some l else none := by
  rw [finishOut, storedAs, Pton6.finish]
  by_cases hlen : l.length = 16
  · rw [if_pos hlen]
    simp only [hlen, ne_eq, not_true_eq_false, if_false, map_image]
  · rw [if_neg hlen]
    simp only [ne_eq, hlen, not_false_eq_true, if_true]

theorem finishOut_some {lb rb : List UInt8} (hfits : lb.length + rb.length ≤ 16) :
    finishOut (storedAs (lb ++ rb) (some lb.length)) =
      if lb.length + rb.length < 16 then some (filled lb rb) else none := by
  rw [finishOut, storedAs, Pton6.finish]
  simp only [List.length_append, Nat.add_sub_cancel_left]
  by_cases hlt : lb.length + rb.length < 16
  · rw [if_neg (by omega), if_pos hlt, map_shiftBytes hlt]
  · rw [if_pos (by omega), if_neg hlt]

theorem filled_swapTail {lb rb : List UInt8} (h : d = true → 4 ≤ rb.length) :
    filled lb (swapTail d rb) = swapTail d (filled lb rb) := by
  rw [filled, filled, swapTail_append h, swapTail_length]

theorem HexGroup.head (h : HexGroup g v) : ∃ c g', g = c :: g' ∧ c ≠ colonChar := by
  obtain ⟨c, g', rfl⟩ := List.exists_cons_of_ne_nil h.ne_nil
  refine ⟨c, g', rfl, ?_⟩
  rintro rfl
  obtain ⟨n, hn, -⟩ := readNumeral_cons h.value
  rw [hexDigit_colon] at hn
  cases hn

theorem Decimal.head (h : Decimal g v) : ∃ c g', g = c :: g' ∧ c ≠ colonChar := by
  obtain ⟨c, g', rfl⟩ := List.exists_cons_of_ne_nil h.ne_nil
  refine ⟨c, g', rfl, ?_⟩
  rintro rfl
  obtain ⟨n, hn, -⟩ := readNumeral_cons h.value
  rw [show decimalDigit colonChar = none by decide] at hn
  cases hn

/-- Neither a group nor an address of version 4 starts with a colon. -/
theorem Tail.head (h : Tail t bs d) : t.head? ≠ some colonChar := by
  cases h with
  | last h =>
    obtain ⟨c, g', rfl, hc⟩ := h.head
    simpa using hc
  | dotted h =>
    obtain ⟨g, v, t', hg, rfl⟩ := h.first
    obtain ⟨c, g', rfl, hc⟩ := hg.head
    simpa using hc
  | cons h ht =>
    obtain ⟨c, g', rfl, hc⟩ := h.head
    simpa using hc

theorem Lead.head {lt lb : List UInt8} (h : Lead lt lb) (hne : lt ≠ []) :
    (lt ++ t).head? ≠ some colonChar := by
  cases h with
  | nil => exact absurd rfl hne
  | cons h ht =>
    obtain ⟨c, g', rfl, hc⟩ := h.head
    simpa using hc

/-- A text that does not start with a colon. -/
theorem pton6From_iff {b : List UInt8} (ht : t.head? ≠ some colonChar) :
    pton6From t = some b ↔ ∃ a d, Denotes t a d ∧ b = swapTail d a := by
  rw [pton6From_eq]
  constructor
  · intro h
    obtain ⟨x, hx, hb⟩ := Option.bind_eq_some_iff.mp h
    rcases run_sound (by simp) hx with
      ⟨bs, d, hpart, -, rfl⟩ | ⟨-, lt, lb, r, rb, d, rfl, hlead, hpart, hfits, rfl⟩
    · rw [List.nil_append, finishOut_none, swapTail_length] at hb
      split_ifs at hb with hlen
      rcases hpart with ⟨-, rfl, -⟩ | htail
      · simp at hlen
      · exact ⟨bs, d, Denotes.full htail hlen, (Option.some.inj hb).symm⟩
    · rw [List.length_nil, Nat.zero_add] at hfits hb
      rw [List.nil_append, finishOut_some (by rw [swapTail_length]; exact hfits),
        swapTail_length] at hb
      split_ifs at hb with hlt
      have hne : lt ≠ [] := by
        rintro rfl
        exact ht rfl
      refine ⟨filled lb rb, d, Denotes.inner hlead hne hpart hlt, ?_⟩
      rw [← filled_swapTail hpart.four_le, ← Option.some.inj hb]
  · rintro ⟨a, d, hden, rfl⟩
    cases hden with
    | full htail hlen =>
      rw [run_tail htail (by simp [hlen]), Option.bind_some, List.nil_append, finishOut_none,
        swapTail_length, if_pos hlen]
    | leading hpart hlen => exact absurd rfl ht
    | @inner lt lb r rb d hlead hne hpart hlt =>
      rw [run_lead hlead (by simp; omega), List.nil_append, run_part hpart (by omega),
        Option.bind_some, List.length_nil, Nat.zero_add,
        finishOut_some (by rw [swapTail_length]; omega), swapTail_length, if_pos hlt,
        filled_swapTail hpart.four_le]

/-- `inet_pton6` accepts the texts that stand for an address. -/
theorem inetPton6_iff {b : List UInt8} :
    inetPton6 t = some b ↔ ∃ a d, Denotes t a d ∧ b = swapTail d a := by
  rw [inetPton6]
  split_ifs with hcolon hsecond
  · constructor
    · intro h
      cases h
    · rintro ⟨a, d, hden, rfl⟩
      cases hden with
      | full htail hlen => exact absurd hcolon htail.head
      | leading hpart hlen => exact absurd rfl hsecond
      | inner hlead hne hpart hlt => exact absurd hcolon (hlead.head hne)
  · rw [not_not] at hsecond
    obtain ⟨r, rfl⟩ : ∃ r, t = colonChar :: colonChar :: r := by
      cases t with
      | nil => simp at hcolon
      | cons c t =>
        cases t with
        | nil => simp at hsecond
        | cons c' r =>
          simp only [List.head?_cons, List.tail_cons, Option.some.injEq] at hcolon hsecond
          exact ⟨r, by rw [hcolon, hsecond]⟩
    rw [List.tail_cons, pton6From_eq, run_colon]
    constructor
    · intro h
      obtain ⟨x, hx, hb⟩ := Option.bind_eq_some_iff.mp h
      rcases run_sound (by simp) hx with ⟨rb, d, hpart, hfits, rfl⟩ | ⟨hnone, -⟩
      · rw [List.length_nil, Nat.zero_add] at hfits
        have hout := @finishOut_some [] (swapTail d rb) (by simpa using hfits)
        rw [List.length_nil, Nat.zero_add, swapTail_length] at hout
        rw [List.length_nil, hout] at hb
        split_ifs at hb with hlt
        refine ⟨filled [] rb, d, Denotes.leading hpart hlt, ?_⟩
        rw [← filled_swapTail hpart.four_le, ← Option.some.inj hb]
      · cases hnone
    · rintro ⟨a, d, hden, rfl⟩
      generalize ht : colonChar :: colonChar :: r = t at hden hcolon
      cases hden with
      | full htail hlen => exact absurd hcolon htail.head
      | @leading r' rb d hpart hlt =>
        obtain rfl : r = r' := by simpa using ht
        have hout := @finishOut_some [] (swapTail d rb) (by simpa using hlt.le)
        rw [List.length_nil, Nat.zero_add, swapTail_length, if_pos hlt] at hout
        rw [run_part hpart (by simpa using hlt.le), Option.bind_some, List.length_nil,
          List.nil_append, ← filled_swapTail hpart.four_le]
        exact hout
      | inner hlead hne hpart hlt => exact absurd hcolon (hlead.head hne)
  · exact pton6From_iff hcolon

end Inet
end Rtcs
end Mqx
