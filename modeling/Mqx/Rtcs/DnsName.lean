import Mathlib.Data.List.Basic
import Mathlib.Data.UInt
import Mathlib.Tactic.Common
import Mqx.Library.Buffer

/-!
# Names of the domain name system

Model of the functions of `dnsutil.c` that turn a dotted name into labels and back. A name is the
list of its characters before the NUL. A buffer is a function of the position; what
`DNS_append_local_name` adds to a name without a final dot is left out.
-/

namespace Mqx
namespace Rtcs
namespace Dnsutil

open Function (update)

def dotChar : UInt8 := 46
def hyphenChar : UInt8 := 45

/-- `isalnum` of the C locale. -/
def Isalnum (c : UInt8) : Prop :=
  48 ≤ c ∧ c ≤ 57 ∨ 65 ≤ c ∧ c ≤ 90 ∨ 97 ≤ c ∧ c ≤ 122

instance : DecidablePred Isalnum := fun c =>
  inferInstanceAs (Decidable (48 ≤ c ∧ c ≤ 57 ∨ 65 ≤ c ∧ c ≤ 90 ∨ 97 ≤ c ∧ c ≤ 122))

/-- The error codes, and the call of `DNS_append_local_name` at a position of the buffer. -/
inductive DnsError
  | invalidName
  | appendLocalName (qname : ℕ → UInt8) (total_length : ℕ)

/-- The loops of `DNS_is_dotted_domain_name`: at the first character of a label, where the outer
loop tests for the NUL, or at a later one. -/
def domainLoop (first : Bool) (total_length label_length_ptr : ℕ) (label_length : UInt8)
    (qname : ℕ → UInt8) : List UInt8 → Except DnsError (ℕ → UInt8)
  | [] =>
    if first then .ok (update qname label_length_ptr 0)
    else .error (.appendLocalName (update qname label_length_ptr label_length) (total_length + 1))
  | c :: name =>
    if first then
      if Isalnum c then
        domainLoop false (total_length + 1) label_length_ptr (label_length + 1)
          (update qname (total_length + 1) c) name
      else .error .invalidName
    else if c = dotChar then
      domainLoop true (total_length + 1) (total_length + 1) 0
        (update qname label_length_ptr label_length) name
    else if (Isalnum c ∨ c = hyphenChar) ∧ total_length < 255 ∧ label_length ≤ 63 then
      domainLoop false (total_length + 1) label_length_ptr (label_length + 1)
        (update qname (total_length + 1) c) name
    else .error .invalidName

/-- `DNS_is_dotted_domain_name`. -/
def dnsIsDottedDomainName (domain_name : List UInt8) (qname : ℕ → UInt8) :
    Except DnsError (ℕ → UInt8) :=
  if domain_name = [] then .error .invalidName
  else if domain_name = [dotChar] then .ok (update qname 0 0)
  else domainLoop true 0 0 0 qname domain_name

/-- The bytes of a buffer from a position on. -/
def bytesAt (buffer : ℕ → UInt8) (pos : ℕ) : ℕ → List UInt8
  | 0 => []
  | n + 1 => buffer pos :: bytesAt buffer (pos + 1) n

/-- The loop of `DNS_parse_answer_name_to_dotted_form`, for a message from `buffer_ptr` on. What
is written from `fill_ptr` on is a list; `none` stands for a loop that is not over yet. -/
def parseLoop (memory : ℕ → UInt8) (buffer_ptr : ℕ) :
    ℕ → ℕ → List UInt8 → Option (List UInt8)
  | 0, _, _ => none
  | fuel + 1, compressed_name, fill =>
    if memory compressed_name = 0 then some fill
    else
      let compressed_name :=
        if memory compressed_name &&& 0xC0 ≠ 0 then
          buffer_ptr +
            ((memory compressed_name).toNat * 256 + (memory (compressed_name + 1)).toNat) % 0x4000
        else compressed_name
      let label_size := (memory compressed_name).toNat
      let fill := fill ++ bytesAt memory (compressed_name + 1) label_size
      let compressed_name := compressed_name + 1 + label_size
      parseLoop memory buffer_ptr fuel compressed_name
        (if memory compressed_name ≠ 0 then fill ++ [dotChar] else fill)

/-- `DNS_parse_answer_name_to_dotted_form`: the text before the NUL that it writes at the end. -/
def dnsParseAnswerName (fuel : ℕ) (memory : ℕ → UInt8) (buffer_ptr name : ℕ) :
    Option (List UInt8) :=
  parseLoop memory buffer_ptr fuel name []

/-! ## Labels -/

/-- A name with a final dot. The root is a dot alone. -/
def dotted (labels : List (List UInt8)) : List UInt8 :=
  labels.flatMap fun label => label ++ [dotChar]

/-- The labels, each behind its length, and a zero byte. -/
def wire (labels : List (List UInt8)) : List UInt8 :=
  labels.flatMap (fun label => UInt8.ofNat label.length :: label) ++ [0]

/-- A name as RFC 1035 has it. -/
structure ValidName (labels : List (List UInt8)) : Prop where
  label : ∀ label ∈ labels, 1 ≤ label.length ∧ label.length ≤ 63
  total : (wire labels).length ≤ 255

section

variable {q q' : ℕ → UInt8} {name cur : List UInt8} {labels labels' : List (List UInt8)}
  {total ptr : ℕ} {len : UInt8}

@[simp] theorem dotted_nil : dotted [] = [] := rfl

@[simp] theorem dotted_cons (label : List UInt8) :
    dotted (label :: labels) = label ++ dotChar :: dotted labels := by
  simp [dotted]

@[simp] theorem wire_nil : wire [] = [0] := rfl

@[simp] theorem wire_cons (label : List UInt8) :
    wire (label :: labels) = UInt8.ofNat label.length :: (label ++ wire labels) := by
  simp [wire]

/-- The labels that the loop accepts. -/
structure Accepted (label : List UInt8) : Prop where
  noDot : dotChar ∉ label
  pos : 1 ≤ label.length
  le : label.length ≤ 64

theorem not_isalnum_dotChar : ¬Isalnum dotChar := by
  decide

/-- Each label of a name that the loop accepts is written behind its length. In the middle of a
label the part before is in the buffer already. -/
theorem domainLoop_ok :
    (domainLoop true total total 0 q name = .ok q' →
      ∃ labels, name = dotted labels ∧ (∀ label ∈ labels, Accepted label) ∧
        HoldsAt q' total (wire labels) ∧ ∀ i < total, q' i = q i) ∧
    (HoldsAt q (ptr + 1) cur → total = ptr + cur.length → len.toNat = cur.length →
      1 ≤ cur.length → cur.length ≤ 64 → domainLoop false total ptr len q name = .ok q' →
      ∃ chars labels, name = chars ++ dotChar :: dotted labels ∧ dotChar ∉ chars ∧
        (cur ++ chars).length ≤ 64 ∧ (∀ label ∈ labels, Accepted label) ∧
        HoldsAt q' ptr (wire ((cur ++ chars) :: labels)) ∧ ∀ i < ptr, q' i = q i) := by
  induction name generalizing total ptr len q cur with
  | nil =>
    constructor
    · intro h
      rw [domainLoop, if_pos rfl] at h
      cases h
      refine ⟨[], rfl, by simp, ?_, fun i hi => Function.update_of_ne hi.ne _ _⟩
      exact ⟨Function.update_self .., trivial⟩
    · intro _ _ _ _ _ h
      rw [domainLoop, if_neg (by simp)] at h
      cases h
  | cons c name ih =>
    constructor
    · intro h
      rw [domainLoop, if_pos rfl] at h
      split_ifs at h with hc
      have hcur : HoldsAt (update q (total + 1) c) (total + 1) [c] :=
        ⟨Function.update_self .., trivial⟩
      obtain ⟨chars, labels, rfl, hdot, hlen, hlabels, hholds, hkeep⟩ :=
        (@ih (update q (total + 1) c) [c] (total + 1) total (0 + 1)).2 hcur rfl rfl le_rfl
          (by simp) h
      refine ⟨(c :: chars) :: labels, ?_, ?_, hholds, fun i hi => ?_⟩
      · simp
      · refine List.forall_mem_cons.2 ⟨⟨?_, by simp, hlen⟩, hlabels⟩
        rw [List.mem_cons, not_or]
        exact ⟨fun heq => not_isalnum_dotChar (heq ▸ hc), hdot⟩
      · exact (hkeep i hi).trans (Function.update_of_ne (by omega) _ _)
    · intro hcur htotal hlen hpos hle h
      rw [domainLoop, if_neg (by simp)] at h
      split_ifs at h with hdot hc
      · obtain ⟨labels, rfl, hlabels, hholds, hkeep⟩ :=
          (@ih (update q ptr len) [] (total + 1) (total + 1) 0).1 h
        refine ⟨[], labels, by simp [hdot], List.not_mem_nil, by simpa using hle, hlabels, ?_,
          fun i hi => ?_⟩
        · rw [wire_cons, List.append_nil]
          refine ⟨?_, holdsAt_append.2 ⟨?_, ?_⟩⟩
          · rw [hkeep ptr (by omega), Function.update_self, ← hlen, UInt8.ofNat_toNat]
          · refine (hcur.update (v := len) (j := ptr) (.inl (by omega))).congr ?_
            intro j hj hj'
            exact hkeep j (by omega)
          · rw [show ptr + 1 + cur.length = total + 1 by omega]
            exact hholds
        · exact (hkeep i (by omega)).trans (Function.update_of_ne (by omega) _ _)
      · have hcur' : HoldsAt (update q (total + 1) c) (ptr + 1) (cur ++ [c]) := by
          refine holdsAt_append.2 ⟨hcur.update (.inr (by omega)), ?_⟩
          rw [show ptr + 1 + cur.length = total + 1 by omega]
          exact ⟨Function.update_self .., trivial⟩
        have hlt : len.toNat ≤ 63 := UInt8.le_iff_toNat_le.1 hc.2.2
        obtain ⟨chars, labels, rfl, hdots, hlen', hlabels, hholds, hkeep⟩ :=
          (@ih (update q (total + 1) c) (cur ++ [c]) (total + 1) ptr (len + 1)).2 hcur'
            (by simp; omega) (by simp [UInt8.toNat_add]; omega) (by simp) (by simp; omega) h
        refine ⟨c :: chars, labels, by simp, ?_, by simpa using hlen', hlabels, ?_,
          fun i hi => ?_⟩
        · rw [List.mem_cons, not_or]
          exact ⟨Ne.symm hdot, hdots⟩
        · simpa using hholds
        · exact (hkeep i hi).trans (Function.update_of_ne (by omega) _ _)

theorem toNat_ofNat_length {label : List UInt8} (h : label.length ≤ 64) :
    (UInt8.ofNat label.length).toNat = label.length :=
  UInt8.toNat_ofNat_of_lt' (Nat.lt_of_le_of_lt h (by decide))

theorem holdsAt_unique {f : ℕ → UInt8} {i : ℕ} {l k : List UInt8} (hl : HoldsAt f i l)
    (hk : HoldsAt f i k) (hlen : l.length = k.length) : l = k := by
  induction l generalizing i k with
  | nil => exact (List.eq_nil_of_length_eq_zero hlen.symm).symm
  | cons v l ih =>
    obtain _ | ⟨w, k⟩ := k
    · cases hlen
    · rw [← hl.1, hk.1, ih hl.2 hk.2 (Nat.succ.inj hlen)]

/-- A buffer holds one name only from a position on. -/
theorem wire_unique {i : ℕ} (hl : HoldsAt q i (wire labels)) (hk : HoldsAt q i (wire labels'))
    (hlabels : ∀ label ∈ labels, 1 ≤ label.length ∧ label.length ≤ 64)
    (hlabels' : ∀ label ∈ labels', 1 ≤ label.length ∧ label.length ≤ 64) : labels = labels' := by
  induction labels generalizing i labels' with
  | nil =>
    obtain _ | ⟨label, labels'⟩ := labels'
    · rfl
    · rw [wire_cons] at hk
      have hzero : UInt8.ofNat label.length = 0 := hk.1.symm.trans hl.1
      have hlen := hlabels' label List.mem_cons_self
      have hnat := toNat_ofNat_length hlen.2
      rw [hzero] at hnat
      change 0 = _ at hnat
      omega
  | cons label labels ih =>
    rw [List.forall_mem_cons] at hlabels
    have hnat := toNat_ofNat_length hlabels.1.2
    rw [wire_cons] at hl
    obtain _ | ⟨label', labels'⟩ := labels'
    · have hzero : UInt8.ofNat label.length = 0 := hl.1.symm.trans hk.1
      rw [hzero] at hnat
      change 0 = _ at hnat
      omega
    · rw [List.forall_mem_cons] at hlabels'
      rw [wire_cons] at hk
      have hlen : label.length = label'.length := by
        rw [← hnat, ← toNat_ofNat_length hlabels'.1.2, ← hl.1, hk.1]
      obtain ⟨hlabel, hrest⟩ := holdsAt_append.1 hl.2
      obtain ⟨hlabel', hrest'⟩ := holdsAt_append.1 hk.2
      rw [holdsAt_unique hlabel hlabel' hlen] at hrest ⊢
      rw [ih hrest hrest' hlabels.2 hlabels'.2]

/-! ## Back to the dotted form -/

theorem bytesAt_eq {f : ℕ → UInt8} {i : ℕ} {l : List UInt8} (h : HoldsAt f i l) :
    bytesAt f i l.length = l := by
  induction l generalizing i with
  | nil => rfl
  | cons v l ih => rw [List.length_cons, bytesAt, h.1, ih h.2]

theorem mask_eq_zero : ∀ n ≤ 63, UInt8.ofNat n &&& 0xC0 = 0 := by
  decide

/-- Without a compression marker the labels come back with dots between them. -/
theorem parseLoop_wire {fuel base p : ℕ} {fill : List UInt8}
    (h : HoldsAt q p (wire labels))
    (hlabels : ∀ label ∈ labels, 1 ≤ label.length ∧ label.length ≤ 63)
    (hfuel : labels.length < fuel) :
    parseLoop q base fuel p fill = some (fill ++ (dotted labels).dropLast) := by
  induction labels generalizing fuel p fill with
  | nil =>
    obtain ⟨fuel, rfl⟩ := Nat.exists_eq_succ_of_ne_zero (Nat.ne_of_gt hfuel)
    rw [parseLoop, if_pos h.1]
    simp
  | cons label labels ih =>
    obtain ⟨fuel, rfl⟩ := Nat.exists_eq_succ_of_ne_zero (Nat.ne_of_gt (Nat.zero_lt_of_lt hfuel))
    rw [List.forall_mem_cons] at hlabels
    rw [wire_cons] at h
    obtain ⟨hsize, hrest⟩ := h
    obtain ⟨hlabel, hrest⟩ := holdsAt_append.1 hrest
    have hnat : (q p).toNat = label.length := by
      rw [hsize, toNat_ofNat_length (by omega)]
    have hne : q p ≠ 0 := by
      intro hzero
      rw [hzero] at hnat
      change 0 = _ at hnat
      omega
    have hmask : q p &&& 0xC0 = 0 := hsize ▸ mask_eq_zero _ hlabels.1.2
    rw [parseLoop, if_neg hne]
    simp only [hmask, ne_eq, not_true_eq_false, if_false, hnat, bytesAt_eq hlabel]
    rw [ih hrest hlabels.2 (Nat.lt_of_succ_lt_succ hfuel)]
    cases labels with
    | nil =>
      rw [if_neg (not_not.2 hrest.1)]
      simp
    | cons next labels =>
      rw [List.forall_mem_cons] at hlabels
      rw [wire_cons] at hrest
      have hnext : q (p + 1 + label.length) ≠ 0 := by
        intro hzero
        have hsize' := toNat_ofNat_length (show next.length ≤ 64 by omega)
        rw [← hrest.1, hzero] at hsize'
        change 0 = _ at hsize'
        omega
      have hnil : dotted (next :: labels) ≠ [] := by simp
      rw [if_pos hnext, dotted_cons label, List.dropLast_append_of_ne_nil (by simp),
        List.dropLast_cons_of_ne_nil hnil]
      simp only [List.append_assoc, List.singleton_append]

/-- A name that ends in a dot and is accepted. -/
theorem dnsIsDottedDomainName_ok (h : dnsIsDottedDomainName name q = .ok q') :
    ∃ labels, (name = dotted labels ∨ name = [dotChar] ∧ labels = []) ∧
      (∀ label ∈ labels, Accepted label) ∧ HoldsAt q' 0 (wire labels) := by
  rw [dnsIsDottedDomainName] at h
  split_ifs at h with hnil hroot
  · cases h
    exact ⟨[], .inr ⟨hroot, rfl⟩, by simp, Function.update_self .., trivial⟩
  · obtain ⟨labels, hname, hlabels, hholds, -⟩ := (@domainLoop_ok q q' name [] 0 0 0).1 h
    exact ⟨labels, .inl hname, hlabels, hholds⟩

theorem wire_length : (wire labels).length = (dotted labels).length + 1 := by
  induction labels with
  | nil => rfl
  | cons label labels ih =>
    rw [wire_cons, dotted_cons, List.length_cons, List.length_append, ih, List.length_append,
      List.length_cons]

theorem splitOn_dotted (h : ∀ label ∈ labels, Accepted label) :
    (dotted labels).splitOn dotChar = labels ++ [[]] := by
  induction labels with
  | nil => rfl
  | cons label labels ih =>
    rw [List.forall_mem_cons] at h
    rw [dotted_cons, List.splitOn_append_cons_self_of_not_mem h.1.noDot, ih h.2]
    rfl

/-- What is expected of an accepted name: its bytes are a name as RFC 1035 has it, and come back
as the name without its final dot, whatever the message around them. -/
def RoundTrip (name : List UInt8) (q : ℕ → UInt8) : Prop :=
  ∃ labels, ValidName labels ∧ HoldsAt q 0 (wire labels) ∧
    ∃ fuel, ∀ buffer_ptr, dnsParseAnswerName fuel q buffer_ptr 0 = some name.dropLast

/-- An accepted name goes there and back just when its labels have at most 63 characters, and all
of it at most 254. -/
theorem roundTrip_iff (h : dnsIsDottedDomainName name q = .ok q') :
    RoundTrip name q' ↔
      (∀ label ∈ name.splitOn dotChar, label.length ≤ 63) ∧ name.length ≤ 254 := by
  obtain ⟨labels, hname, haccepted, hholds⟩ := dnsIsDottedDomainName_ok h
  have hrange : ∀ label ∈ labels, 1 ≤ label.length ∧ label.length ≤ 64 :=
    fun label hlabel => ⟨(haccepted label hlabel).pos, (haccepted label hlabel).le⟩
  have hsplit : (∀ label ∈ name.splitOn dotChar, label.length ≤ 63) ↔
      ∀ label ∈ labels, label.length ≤ 63 := by
    obtain rfl | ⟨rfl, rfl⟩ := hname
    · rw [splitOn_dotted haccepted]
      simp [or_imp, forall_and]
    · have hroot : [dotChar].splitOn dotChar = [[], []] := by
        simp [List.splitOn_cons_eq_if_modifyHead]
      simp [hroot]
  have hlength : name.length ≤ 254 ↔ (wire labels).length ≤ 255 := by
    obtain rfl | ⟨rfl, rfl⟩ := hname
    · rw [wire_length, Nat.add_le_add_iff_right]
    · simp
  have hdrop : (dotted labels).dropLast = name.dropLast := by
    obtain rfl | ⟨rfl, rfl⟩ := hname <;> rfl
  rw [hsplit, hlength]
  constructor
  · rintro ⟨labels', hvalid, hholds', -⟩
    have hlabels' : ∀ label ∈ labels', 1 ≤ label.length ∧ label.length ≤ 64 :=
      fun label hlabel => (hvalid.label label hlabel).imp_right Nat.le_succ_of_le
    rw [wire_unique hholds hholds' hrange hlabels']
    exact ⟨fun label hlabel => (hvalid.label label hlabel).2, hvalid.total⟩
  · rintro ⟨hle, htotal⟩
    have hlabels : ∀ label ∈ labels, 1 ≤ label.length ∧ label.length ≤ 63 :=
      fun label hlabel => ⟨(hrange label hlabel).1, hle label hlabel⟩
    refine ⟨labels, ⟨hlabels, htotal⟩, hholds, labels.length + 1, fun buffer_ptr => ?_⟩
    rw [dnsParseAnswerName, parseLoop_wire hholds hlabels (Nat.lt_succ_self _), List.nil_append,
      hdrop]

end

end Dnsutil
end Rtcs
end Mqx
