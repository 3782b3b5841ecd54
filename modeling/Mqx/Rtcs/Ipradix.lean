import Mathlib.Logic.Function.Basic
import Mathlib.Logic.Relation
import Mqx.Library.PrefixMask

/-!
# The radix tree of IP networks

Model of `ipradix.c`. Nodes live in a heap and are linked by `CHILD` and
`PARENT`; an address without a node is free memory. The loops take a bound on
their number of turns, which is one more than the longest mask: that it is
never reached is part of what is proved.
-/

namespace Mqx
namespace Rtcs

open BitVec

/-- `IPRADIX_NODE`; `DATA` is `none` for a null pointer. -/
structure RadixNode (δ : Type) where
  ip : BitVec 32
  mask : BitVec 32
  parent : Option ℕ
  child : Bool → Option ℕ
  data : Option δ

/-- The nodes by address. -/
abbrev RadixHeap (δ : Type) := ℕ → Option (RadixNode δ)

/-- A partition of nodes: a block it hands out is not in use. -/
structure Partition (δ : Type) where
  alloc : RadixHeap δ → Option ℕ
  fresh : ∀ h a, alloc h = some a → h a = none

section model

variable {δ σ : Type}

/-- `IPRADIX_init`. -/
def ipradixInit (root : ℕ) : RadixHeap δ :=
  Function.update (fun _ => none) root (some ⟨0, 0, none, fun _ => none, none⟩)

def RadixHeap.setChild (h : RadixHeap δ) (a : ℕ) (b : Bool) (c : Option ℕ) : RadixHeap δ :=
  Function.update h a ((h a).map fun n => { n with child := Function.update n.child b c })

def RadixHeap.setParent (h : RadixHeap δ) (a p : ℕ) : RadixHeap δ :=
  Function.update h a ((h a).map fun n => { n with parent := some p })

def RadixHeap.setData (h : RadixHeap δ) (a : ℕ) (d : Option δ) : RadixHeap δ :=
  Function.update h a ((h a).map fun n => { n with data := d })

/-- `RTCS_part_free`. -/
def RadixHeap.free (h : RadixHeap δ) (a : ℕ) : RadixHeap δ := Function.update h a none

/-- `bit = (~MASK >> 1) + 1; child = (ip & bit) ? 1 : 0`. -/
def childOf (ip mask : BitVec 32) : Bool := decide (ip &&& nextBit mask ≠ 0)

/-- "First find the best match": down from `node` as long as `go` accepts the
next node. Returns `node`, `child` and `nextnode` as the loop leaves them. -/
def search (h : RadixHeap δ) (ip : BitVec 32) (go : RadixNode δ → Bool) :
    ℕ → ℕ → Option (ℕ × Bool × Option ℕ)
  | 0, _ => none
  | fuel + 1, node => do
    let n ← h node
    let child := childOf ip n.mask
    match n.child child with
    | none => some (node, child, none)
    | some nextnode => do
      let m ← h nextnode
      if go m then search h ip go fuel nextnode else some (node, child, some nextnode)

/-- Up the `PARENT` pointers until `test()` accepts; `test` may change the data
it is called with. -/
def backtrack (h : RadixHeap δ) (test : δ → σ → Bool × σ) : ℕ → Option ℕ → σ → Option σ
  | _, none, s => some s
  | 0, some _, _ => none
  | fuel + 1, some node, s => do
    let n ← h node
    match n.data with
    | none => backtrack h test fuel n.parent s
    | some d =>
      let r := test d s
      if r.1 then some r.2 else backtrack h test fuel n.parent r.2

/-- The node is on the way to `ip`. -/
def matchesIp (ip : BitVec 32) (m : RadixNode δ) : Bool := ip &&& m.mask == m.ip

/-- `IPRADIX_findbest`. -/
def ipradixFindbest (root : ℕ) (ip : BitVec 32) (test : δ → σ → Bool × σ) (s : σ)
    (h : RadixHeap δ) : Option σ := do
  let r ← search h ip (matchesIp ip) 33 root
  backtrack h test 33 (some r.1) s

/-- "The best match has a child that isn't a match. Insert new node": the new
node, and the child at which the search goes on. The inner `none` is a failed
allocation. -/
def splitEdge (part : Partition δ) (ip mask : BitVec 32) (h : RadixHeap δ) (node : ℕ)
    (child : Bool) (nextnode : Option ℕ) : Option (Option (RadixHeap δ × ℕ × Bool)) := do
  let n ← h node
  match nextnode with
  | none => some (some (h, node, child))
  | some next => do
    if n.mask < mask then
      let nn ← h next
      let smeared := smear32 (~~~mask ||| (ip ^^^ nn.ip))
      let bit := (smeared >>> 1) + 1
      let newmask := ~~~smeared
      match part.alloc h with
      | none => some none
      | some new =>
        let newnode : RadixNode δ :=
          { ip := ip &&& newmask
            mask := newmask
            parent := some node
            child := Function.update (fun _ => none) (decide (nn.ip &&& bit ≠ 0)) (some next)
            data := none }
        let h₁ : RadixHeap δ := Function.update h new (some newnode)
        let h₂ := h₁.setChild node child (some new)
        let h₃ := h₂.setParent next new
        some (some (h₃, new, decide (ip &&& bit ≠ 0)))
    else
      some (some (h, node, child))

/-- "Now the best match has a NULL child. Create new leaf". -/
def addLeaf (part : Partition δ) (ip mask : BitVec 32) (h : RadixHeap δ) (node : ℕ)
    (child : Bool) : Option (RadixHeap δ × ℕ) := do
  let n ← h node
  if n.mask < mask then
    match part.alloc h with
    | none => some (h, node)
    | some new =>
      let newnode : RadixNode δ := ⟨ip, mask, some node, fun _ => none, none⟩
      let h₁ : RadixHeap δ := Function.update h new (some newnode)
      some (h₁.setChild node child (some new), new)
  else
    some (h, node)

/-- "insert() may have deleted DATA, so delete unnecessary node(s)". -/
def pruneNodes : ℕ → RadixHeap δ → ℕ → Option (RadixHeap δ)
  | 0, _, _ => none
  | fuel + 1, h, node => do
    let n ← h node
    if n.data.isSome then some h
    else
      match n.parent with
      | none => some h
      | some nextnode => do
        if (n.child false).isSome && (n.child true).isSome then some h
        else
          let p ← h nextnode
          let child := if p.child false = some node then false else true
          match (n.child false).or (n.child true) with
          | some c =>
            pruneNodes fuel (((h.setChild nextnode child (some c)).setParent c nextnode).free node)
              nextnode
          | none => pruneNodes fuel ((h.setChild nextnode child none).free node) nextnode

/-- The end of `IPRADIX_insert`: the call of `insert()` on an exact match, and
the clean-up. The boolean says whether `insert()` was called. -/
def finishInsert (mask : BitVec 32) (insert : Option δ → Option δ) (h : RadixHeap δ) (node : ℕ) :
    Option (RadixHeap δ × Bool) := do
  let n ← h node
  if mask = n.mask then
    let h' ← pruneNodes 33 (h.setData node (insert n.data)) node
    some (h', true)
  else
    let h' ← pruneNodes 33 h node
    some (h', false)

/-- The nodes `IPRADIX_insert` descends to. -/
def goesTo (ip mask : BitVec 32) (m : RadixNode δ) : Bool :=
  !decide (mask < m.mask) && (ip &&& m.mask == m.ip)

/-- `IPRADIX_insert`; `part` may be a null pointer. -/
def ipradixInsert (root : ℕ) (part : Option (Partition δ)) (ip mask : BitVec 32)
    (insert : Option δ → Option δ) (h : RadixHeap δ) : Option (RadixHeap δ × Bool) := do
  let r ← search h ip (goesTo ip mask) 33 root
  match part with
  | none => finishInsert mask insert h r.1
  | some part => do
    match ← splitEdge part ip mask h r.1 r.2.1 r.2.2 with
    | none => some (h, false)
    | some r' => do
      let r'' ← addLeaf part ip mask r'.1 r'.2.1 r'.2.2
      finishInsert mask insert r''.1 r''.2

end model

/-- A contiguous mask and an address without bits behind it. -/
def IsNetwork (ip mask : BitVec 32) : Prop :=
  ∃ L ≤ 32, mask = prefixMask 32 L ∧ ip &&& mask = ip

namespace IsNetwork

variable {ip mask ip' mask' x : BitVec 32}

theorem mask_eq (h : IsNetwork ip mask) : mask = prefixMask 32 (prefixLen mask) := by
  obtain ⟨L, hL, rfl, -⟩ := h
  rw [prefixLen_prefixMask hL]

theorem len_le (h : IsNetwork ip mask) : prefixLen mask ≤ 32 := by
  obtain ⟨L, hL, rfl, -⟩ := h
  rwa [prefixLen_prefixMask hL]

theorem and_mask (h : IsNetwork ip mask) : ip &&& mask = ip := by
  obtain ⟨L, -, -, h⟩ := h
  exact h

theorem contains_iff (h : IsNetwork ip mask) :
    x &&& mask = ip ↔ AgreeTo (prefixLen mask) x ip := by
  have hand := h.and_mask
  have hmask := h.mask_eq
  rw [hmask] at hand
  rw [← and_prefixMask_eq_iff hand, ← hmask]

theorem mask_lt_iff (h : IsNetwork ip mask) (h' : IsNetwork ip' mask') :
    mask < mask' ↔ prefixLen mask < prefixLen mask' := by
  rw [← prefixMask_lt_iff h.len_le h'.len_le, ← h.mask_eq, ← h'.mask_eq]

/-- Networks with masks of the same length around the same address. -/
theorem ext (h : IsNetwork ip mask) (h' : IsNetwork ip' mask')
    (hlen : prefixLen mask = prefixLen mask') (hagree : AgreeTo (prefixLen mask) ip ip') :
    ip = ip' ∧ mask = mask' := by
  have hmask : mask = mask' := by rw [h.mask_eq, h'.mask_eq, hlen]
  refine ⟨?_, hmask⟩
  have := h'.contains_iff.mpr (hlen ▸ hagree)
  rw [← this, ← hmask, h.and_mask]

theorem childOf_eq (h : IsNetwork ip mask) (hlen : prefixLen mask < 32) :
    childOf x mask = x.getMsbD (prefixLen mask) := by
  rw [Bool.eq_iff_iff, ← and_nextBit_ne_zero_iff hlen, ← h.mask_eq, childOf, decide_eq_true_eq]

end IsNetwork

section links

variable {δ σ : Type} {root a c p : ℕ} {b : Bool} {h : RadixHeap δ} {n m k : RadixNode δ}
  {ip : BitVec 32} {go : RadixNode δ → Bool}

def RadixNode.len (n : RadixNode δ) : ℕ := prefixLen n.mask

/-- The prefix of `m` is longer than that of `n`, and goes on with the bit `b`. -/
structure Extends (n m : RadixNode δ) (b : Bool) : Prop where
  len_lt : n.len < m.len
  agree : AgreeTo n.len n.ip m.ip
  bit : m.ip.getMsbD n.len = b

theorem Extends.trans {b' : Bool} (h₁ : Extends n m b) (h₂ : Extends m k b') : Extends n k b := by
  constructor
  · exact h₁.len_lt.trans h₂.len_lt
  · exact h₁.agree.trans (h₂.agree.mono h₁.len_lt.le)
  · rw [← h₂.agree _ h₁.len_lt]
    exact h₁.bit

/-- The pointers between the nodes, each seen from a single node. -/
structure RadixLinks (root : ℕ) (h : RadixHeap δ) : Prop where
  root_node : ∃ n, h root = some n ∧ n.mask = 0 ∧ n.ip = 0 ∧ n.parent = none
  network : ∀ a n, h a = some n → IsNetwork n.ip n.mask
  child : ∀ a n b c, h a = some n → n.child b = some c →
    ∃ m, h c = some m ∧ m.parent = some a ∧ Extends n m b
  parent : ∀ a n, h a = some n → a ≠ root →
    ∃ p pn b, n.parent = some p ∧ h p = some pn ∧ pn.child b = some a

/-- One turn of the search loop. -/
def Below (h : RadixHeap δ) (ip : BitVec 32) (go : RadixNode δ → Bool) (a c : ℕ) : Prop :=
  ∃ n m, h a = some n ∧ n.child (childOf ip n.mask) = some c ∧ h c = some m ∧ go m = true

theorem Below.unique {c' : ℕ} (h₁ : Below h ip go a c) (h₂ : Below h ip go a c') : c = c' := by
  obtain ⟨n, m, hn, hc, -, -⟩ := h₁
  obtain ⟨n', m', hn', hc', -, -⟩ := h₂
  obtain rfl : n = n' := Option.some.inj (hn.symm.trans hn')
  exact Option.some.inj (hc.symm.trans hc')

/-- The nodes from `a` up to the root. -/
inductive Ups (h : RadixHeap δ) : ℕ → List (RadixNode δ) → Prop
  | root {a : ℕ} {n : RadixNode δ} : h a = some n → n.parent = none → Ups h a [n]
  | step {a p : ℕ} {n : RadixNode δ} {l : List (RadixNode δ)} :
      h a = some n → n.parent = some p → Ups h p l → Ups h a (n :: l)

/-- Offering data to `test()` until it accepts. -/
def offer (test : δ → σ → Bool × σ) : List δ → σ → σ
  | [], s => s
  | d :: l, s => if (test d s).1 then (test d s).2 else offer test l (test d s).2

theorem Ups.backtrack_eq {l : List (RadixNode δ)} {fuel : ℕ} (hups : Ups h a l)
    (test : δ → σ → Bool × σ) (hfuel : l.length ≤ fuel) (s : σ) :
    backtrack h test fuel (some a) s = some (offer test (l.filterMap RadixNode.data) s) := by
  induction hups generalizing fuel s with
  | @root a n hn hpar =>
    cases fuel with
    | zero => simp at hfuel
    | succ fuel =>
      cases hd : n.data with
      | none => simp [backtrack, hn, hd, hpar, offer]
      | some d =>
        simp only [backtrack, hn, hd, hpar, Option.bind_eq_bind, Option.bind_some,
          List.filterMap_cons, List.filterMap_nil, offer]
        split_ifs <;> rfl
  | @step a p n l hn hpar _ ih =>
    cases fuel with
    | zero => simp at hfuel
    | succ fuel =>
      have hih := fun s => ih (Nat.le_of_succ_le_succ hfuel) s
      cases hd : n.data with
      | none => simp [backtrack, hn, hd, hpar, hih]
      | some d =>
        simp only [backtrack, hn, hd, hpar, hih, Option.bind_eq_bind, Option.bind_some,
          List.filterMap_cons, offer]
        split_ifs <;> rfl

/-- The nodes the search may go to are the ones between the root and the node at
which it ends. -/
theorem reaches_of_end (hr : Relation.ReflTransGen (Below h ip go) root a)
    (hend : ∀ c, ¬ Below h ip go a c)
    (hc : Relation.ReflTransGen (Below h ip go) root c) :
    Relation.ReflTransGen (Below h ip go) c a := by
  rcases Relation.ReflTransGen.total_of_right_unique (fun _ _ _ h₁ h₂ => h₁.unique h₂)
    hr hc with hac | hca
  · rcases hac.cases_head with rfl | ⟨d, hd, -⟩
    · exact .refl
    · exact absurd hd (hend d)
  · exact hca

theorem matchesIp_iff (hnet : IsNetwork m.ip m.mask) :
    matchesIp ip m = true ↔ AgreeTo m.len ip m.ip := by
  rw [matchesIp, beq_iff_eq, hnet.contains_iff]
  rfl

namespace RadixLinks

variable (hl : RadixLinks root h)

include hl

theorem below_extends (hb : Below h ip go a c) (hn : h a = some n) (hm : h c = some m) :
    m.parent = some a ∧ ∃ b, Extends n m b := by
  obtain ⟨n', m', hn', hc, hm', -⟩ := hb
  obtain rfl : n = n' := Option.some.inj (hn.symm.trans hn')
  obtain ⟨m'', hm'', hpar, hext⟩ := hl.child a n _ c hn hc
  obtain rfl : m = m'' := Option.some.inj (hm.symm.trans hm'')
  exact ⟨hpar, _, hext⟩

/-- Along the search the masks get longer. -/
theorem len_of_reaches (hr : Relation.ReflTransGen (Below h ip go) a c) (hn : h a = some n)
    (hm : h c = some m) : a = c ∨ n.len < m.len := by
  induction hr generalizing m with
  | refl => exact .inl rfl
  | tail hr hb ih =>
    obtain ⟨k, m', hk, hc, hm', hgo⟩ := hb
    obtain ⟨-, b, hext⟩ := hl.below_extends ⟨k, m', hk, hc, hm', hgo⟩ hk hm
    right
    rcases ih hk with rfl | hlt
    · obtain rfl : n = k := Option.some.inj (hn.symm.trans hk)
      exact hext.len_lt
    · exact hlt.trans hext.len_lt

theorem childOf_parent (hn : h a = some n) (hc : n.child b = some c) (hm : h c = some m)
    (hagree : AgreeTo m.len ip m.ip) : childOf ip n.mask = b := by
  obtain ⟨m', hm', -, hext⟩ := hl.child a n b c hn hc
  obtain rfl : m = m' := Option.some.inj (hm.symm.trans hm')
  have hlen := (hl.network c m hm).len_le
  have hlt := hext.len_lt
  rw [(hl.network a n hn).childOf_eq (lt_of_lt_of_le hlt hlen)]
  exact (hagree _ hlt).trans hext.bit

/-- Every node the search may go to is on its way. -/
theorem reaches (hgo : ∀ c m, h c = some m → go m = true → AgreeTo m.len ip m.ip)
    (hdown : ∀ n m b a c, h a = some n → h c = some m → Extends n m b → go m = true →
      go n = true) (hn : h a = some n)
    (hacc : a = root ∨ go n = true) : Relation.ReflTransGen (Below h ip go) root a := by
  induction hlen : n.len using Nat.strong_induction_on generalizing a n with
  | _ len ih =>
    by_cases hroot : a = root
    · rw [hroot]
    · have hacc' : go n = true := hacc.resolve_left hroot
      obtain ⟨p, pn, b, hpar, hpn, hchild⟩ := hl.parent a n hn hroot
      obtain ⟨n', hn', -, hext⟩ := hl.child p pn b a hpn hchild
      obtain rfl : n = n' := Option.some.inj (hn.symm.trans hn')
      have hp := ih pn.len (hlen ▸ hext.len_lt) hpn
        (.inr (hdown pn n b p a hpn hn hext hacc')) rfl
      have hb := hl.childOf_parent hpn hchild hn (hgo a n hn hacc')
      exact hp.tail ⟨pn, n, hpn, by rw [hb]; exact hchild, hn, hacc'⟩

/-- The search ends at a node from which it cannot go on. -/
theorem search_spec {fuel : ℕ} (hn : h a = some n) (hfuel : 32 < fuel + n.len) :
    ∃ node k, h node = some k ∧
      search h ip go fuel a = some (node, childOf ip k.mask, k.child (childOf ip k.mask)) ∧
      Relation.ReflTransGen (Below h ip go) a node ∧ ∀ c, ¬ Below h ip go node c := by
  have hle := (hl.network a n hn).len_le
  induction fuel generalizing a n with
  | zero => exact absurd hle (by simpa [RadixNode.len] using hfuel)
  | succ fuel ih =>
    cases hc : n.child (childOf ip n.mask) with
    | none =>
      refine ⟨a, n, hn, ?_, .refl, ?_⟩
      · simp [search, hn, hc]
      · rintro c ⟨n', m, hn', hc', -, -⟩
        obtain rfl : n = n' := Option.some.inj (hn.symm.trans hn')
        rw [hc] at hc'
        cases hc'
    | some c =>
      obtain ⟨m, hm, -, hext⟩ := hl.child a n _ c hn hc
      cases hgo : go m with
      | true =>
        have hlt := hext.len_lt
        obtain ⟨node, k, hk, hsearch, hreach, hend⟩ :=
          ih hm (by omega) (hl.network c m hm).len_le
        refine ⟨node, k, hk, ?_, .head ⟨n, m, hn, hc, hm, hgo⟩ hreach, hend⟩
        simp [search, hn, hc, hm, hgo, hsearch]
      | false =>
        refine ⟨a, n, hn, ?_, .refl, ?_⟩
        · simp [search, hn, hc, hm, hgo]
        · rintro c' ⟨n', m', hn', hc', hm', hgo'⟩
          obtain rfl : n = n' := Option.some.inj (hn.symm.trans hn')
          obtain rfl : c = c' := Option.some.inj (hc.symm.trans hc')
          obtain rfl : m = m' := Option.some.inj (hm.symm.trans hm')
          rw [hgo] at hgo'
          cases hgo'

/-- From a node of the search back to the root. -/
theorem ups_of_reaches (hr : Relation.ReflTransGen (Below h ip go) root a) :
    ∃ l, Ups h a l ∧ (∀ n, h a = some n → l.length ≤ n.len + 1 ∧ ∀ m ∈ l, m.len ≤ n.len) ∧
      l.Pairwise (fun x y => y.len < x.len) ∧
      ∀ m, m ∈ l ↔ ∃ c, h c = some m ∧ Relation.ReflTransGen (Below h ip go) root c ∧
        Relation.ReflTransGen (Below h ip go) c a := by
  obtain ⟨r, hr₀, hmask, -, hpar⟩ := hl.root_node
  induction hr with
  | refl =>
    refine ⟨[r], .root hr₀ hpar, ?_, List.pairwise_singleton _ _, ?_⟩
    · intro n hn
      obtain rfl : r = n := Option.some.inj (hr₀.symm.trans hn)
      simp
    · intro m
      constructor
      · intro hm
        rw [List.mem_singleton.mp hm]
        exact ⟨root, hr₀, .refl, .refl⟩
      · rintro ⟨c, hc, -, hc'⟩
        rcases hl.len_of_reaches hc' hc hr₀ with rfl | hlt
        · rw [List.mem_singleton]
          exact Option.some.inj (hc.symm.trans hr₀)
        · have hzero : r.len = 0 := by
            rw [RadixNode.len, hmask, prefixLen_zero]
          omega
  | @tail p a hr hb ih =>
    obtain ⟨l, hups, hbound, hpair, hmem⟩ := ih
    obtain ⟨pn, n, hpn, hchild, hn, hgo⟩ := hb
    obtain ⟨hpar', b, hext⟩ := hl.below_extends ⟨pn, n, hpn, hchild, hn, hgo⟩ hpn hn
    have hlt := hext.len_lt
    obtain ⟨hlength, hle⟩ := hbound pn hpn
    refine ⟨n :: l, .step hn hpar' hups, ?_, ?_, ?_⟩
    · intro n' hn'
      obtain rfl : n = n' := Option.some.inj (hn.symm.trans hn')
      constructor
      · rw [List.length_cons]
        omega
      · intro m hm
        rcases List.mem_cons.mp hm with rfl | hm
        · exact le_rfl
        · exact (hle m hm).trans hlt.le
    · refine List.pairwise_cons.mpr ⟨?_, hpair⟩
      intro m hm
      exact lt_of_le_of_lt (hle m hm) hlt
    · intro m
      rw [List.mem_cons, hmem]
      constructor
      · rintro (rfl | ⟨c, hc, hc₁, hc₂⟩)
        · exact ⟨a, hn, hr.tail ⟨pn, m, hpn, hchild, hn, hgo⟩, .refl⟩
        · exact ⟨c, hc, hc₁, hc₂.tail ⟨pn, n, hpn, hchild, hn, hgo⟩⟩
      · rintro ⟨c, hc, hc₁, hc₂⟩
        rcases hc₂.cases_tail with rfl | ⟨q, hq, hqa⟩
        · exact .inl (Option.some.inj (hc.symm.trans hn))
        · -- The node above `a` is the one its `PARENT` points to.
          obtain ⟨qn, n', hqn, hqc, hn', hgo'⟩ := hqa
          obtain rfl : n = n' := Option.some.inj (hn.symm.trans hn')
          have hparq := (hl.below_extends ⟨qn, n, hqn, hqc, hn, hgo'⟩ hqn hn).1
          obtain rfl : p = q := Option.some.inj (hpar'.symm.trans hparq)
          exact .inr ⟨c, hc, hc₁, hq⟩

theorem reaches_of_contains (hm : h c = some m) (hcont : ip &&& m.mask = m.ip) :
    Relation.ReflTransGen (Below h ip (matchesIp ip)) root c := by
  apply hl.reaches _ _ hm (.inr (by simpa [matchesIp] using hcont))
  · intro c m hm
    exact (matchesIp_iff (hl.network c m hm)).mp
  · intro n m b a c hn hm hext hgo
    rw [matchesIp_iff (hl.network c m hm)] at hgo
    rw [matchesIp_iff (hl.network a n hn)]
    exact (hgo.mono hext.len_lt.le).trans hext.agree.symm

/-- No two nodes stand for the same network. -/
theorem node_unique (hn : h a = some n) (hm : h c = some m) (hip : n.ip = m.ip)
    (hmask : n.mask = m.mask) : a = c := by
  have ha := hl.reaches_of_contains hn (hl.network a n hn).and_mask
  have hc := hl.reaches_of_contains hm (hl.network c m hm).and_mask
  have hlen : n.len = m.len := by rw [RadixNode.len, hmask, RadixNode.len]
  rw [← hip] at hc
  rcases Relation.ReflTransGen.total_of_right_unique (fun _ _ _ h₁ h₂ => h₁.unique h₂) ha hc
    with hac | hca
  · rcases hl.len_of_reaches hac hn hm with heq | hlt
    · exact heq
    · omega
  · rcases hl.len_of_reaches hca hm hn with heq | hlt
    · exact heq.symm
    · omega

/-- `test()` is offered the data of the nodes around the address, from the
longest mask to the shortest. -/
theorem ipradixFindbest_spec (ip : BitVec 32) (test : δ → σ → Bool × σ) (s : σ) :
    ∃ l : List (RadixNode δ), l.Pairwise (fun x y => y.len < x.len) ∧
      (∀ m, m ∈ l ↔ (∃ a, h a = some m) ∧ ip &&& m.mask = m.ip) ∧
      ipradixFindbest root ip test s h = some (offer test (l.filterMap RadixNode.data) s) := by
  obtain ⟨r, hr₀, hmask, hip, hpar⟩ := hl.root_node
  obtain ⟨node, k, hk, hsearch, hreach, hend⟩ :
      ∃ node k, h node = some k ∧ search h ip (matchesIp ip) 33 root = some (node, _, _) ∧
        Relation.ReflTransGen (Below h ip (matchesIp ip)) root node ∧
        ∀ c, ¬ Below h ip (matchesIp ip) node c :=
    hl.search_spec hr₀ (show 32 < 33 + r.len by omega)
  obtain ⟨l, hups, hbound, hpair, hmem⟩ := hl.ups_of_reaches hreach
  refine ⟨l, hpair, ?_, ?_⟩
  · intro m
    rw [hmem]
    constructor
    · rintro ⟨c, hc, hc', -⟩
      refine ⟨⟨c, hc⟩, ?_⟩
      rcases hc'.cases_tail with rfl | ⟨q, -, -, m', -, -, hm', hgo⟩
      · obtain rfl : r = m := Option.some.inj (hr₀.symm.trans hc)
        rw [hmask, hip]
        simp
      · obtain rfl : m = m' := Option.some.inj (hc.symm.trans hm')
        simpa [matchesIp] using hgo
    · rintro ⟨⟨c, hc⟩, hcont⟩
      have hc' := hl.reaches_of_contains hc hcont
      exact ⟨c, hc, hc', reaches_of_end hreach hend hc'⟩
  · simp only [ipradixFindbest, hsearch, Option.bind_eq_bind, Option.bind_some]
    have hlen := (hl.network node k hk).len_le
    have := (hbound k hk).1
    exact hups.backtrack_eq test (by simp only [RadixNode.len] at this; omega) s

end RadixLinks

end links

end Rtcs
end Mqx
