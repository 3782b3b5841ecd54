import Mqx.Rtcs.IpradixInsert

/-!
# The walk through the radix tree

Model of `IPRADIX_walk`. It finds its way with the node it comes from; it visits every node
once, each before the ones below it. The loop takes a bound on its number of turns.
-/

namespace Mqx
namespace Rtcs

section model

variable {δ σ : Type}

/-- The loop of `IPRADIX_walk`. -/
def walkLoop (h : RadixHeap δ) (test : BitVec 32 → BitVec 32 → Option δ → σ → Bool × σ) :
    ℕ → Option ℕ → Option ℕ → σ → Option σ
  | _, none, _, s => some s
  | 0, some _, _, _ => none
  | fuel + 1, some node, lastnode, s => do
    let n ← h node
    if lastnode = n.parent then
      let r := test n.ip n.mask n.data s
      if r.1 then some r.2
      else walkLoop h test fuel (((n.child false).or (n.child true)).or n.parent) (some node) r.2
    else if lastnode = n.child false then
      walkLoop h test fuel ((n.child true).or n.parent) (some node) s
    else walkLoop h test fuel n.parent (some node) s

/-- `IPRADIX_walk`. -/
def ipradixWalk (fuel root : ℕ) (test : BitVec 32 → BitVec 32 → Option δ → σ → Bool × σ) (s : σ)
    (h : RadixHeap δ) : Option σ :=
  walkLoop h test fuel (some root) none s

/-! ## The order of the nodes -/

/-- The nodes from `a` down, each before the ones below it. -/
def preorder (h : RadixHeap δ) : ℕ → ℕ → List (ℕ × RadixNode δ)
  | 0, _ => []
  | depth + 1, a =>
    (h a).elim [] fun n =>
      (a, n) :: ((n.child false).elim [] (preorder h depth) ++
        (n.child true).elim [] (preorder h depth))

/-- The nodes of a tree; no way is longer than the longest mask. -/
def nodesOf (h : RadixHeap δ) (root : ℕ) : List (ℕ × RadixNode δ) :=
  preorder h 33 root

/-- `test()` for one node after the other until it returns `TRUE`. -/
def visitAll (test : BitVec 32 → BitVec 32 → Option δ → σ → Bool × σ) :
    List (ℕ × RadixNode δ) → σ → Bool × σ
  | [], s => (false, s)
  | n :: l, s =>
    let r := test n.2.ip n.2.mask n.2.data s
    if r.1 then r else visitAll test l r.2

end model

section

variable {δ σ : Type} {h : RadixHeap δ} {root a c depth : ℕ} {n : RadixNode δ} {b : Bool}
  {test : BitVec 32 → BitVec 32 → Option δ → σ → Bool × σ} {l k : List (ℕ × RadixNode δ)} {s : σ}

theorem visitAll_append :
    visitAll test (l ++ k) s =
      if (visitAll test l s).1 then visitAll test l s else visitAll test k (visitAll test l s).2 := by
  induction l generalizing s with
  | nil => rfl
  | cons n l ih =>
    simp only [List.cons_append, visitAll]
    by_cases hstop : (test n.2.ip n.2.mask n.2.data s).1 = true
    · simp [hstop]
    · simp [hstop, ih]

theorem preorder_succ (hn : h a = some n) :
    preorder h (depth + 1) a =
      (a, n) :: ((n.child false).elim [] (preorder h depth) ++
        (n.child true).elim [] (preorder h depth)) := by
  rw [preorder, hn, Option.elim_some]

/-- `walkLoop` from `node` on, with `a` behind it, visits `l` and comes to `up`. -/
def Walks (h : RadixHeap δ) (test : BitVec 32 → BitVec 32 → Option δ → σ → Bool × σ)
    (node lastnode : Option ℕ) (l : List (ℕ × RadixNode δ)) (node' lastnode' : Option ℕ) : Prop :=
  ∃ turns, ∀ fuel s, walkLoop h test (fuel + turns) node lastnode s =
    if (visitAll test l s).1 then some (visitAll test l s).2
    else walkLoop h test fuel node' lastnode' (visitAll test l s).2

theorem Walks.refl (node lastnode : Option ℕ) : Walks h test node lastnode [] node lastnode :=
  ⟨0, fun _ _ => rfl⟩

theorem Walks.trans {node lastnode node' lastnode' node'' lastnode'' : Option ℕ}
    (hl : Walks h test node lastnode l node' lastnode')
    (hk : Walks h test node' lastnode' k node'' lastnode'') :
    Walks h test node lastnode (l ++ k) node'' lastnode'' := by
  obtain ⟨t, ht⟩ := hl
  obtain ⟨t', ht'⟩ := hk
  refine ⟨t' + t, fun fuel s => ?_⟩
  rw [← Nat.add_assoc, ht, visitAll_append, ht']
  by_cases hstop : (visitAll test l s).1 = true
  · simp [hstop]
  · simp [hstop]

/-- The turn at a node that is come to from above. -/
theorem walks_down (hn : h a = some n) :
    Walks h test (some a) n.parent [(a, n)] (((n.child false).or (n.child true)).or n.parent)
      (some a) := by
  refine ⟨1, fun fuel s => ?_⟩
  rw [walkLoop, hn]
  simp only [Option.bind_eq_bind, Option.bind_some, if_true, visitAll]
  by_cases hstop : (test n.ip n.mask n.data s).1 = true
  · simp [hstop]
  · simp [hstop]

namespace RadixLinks

variable (hl : RadixLinks root h)

include hl

theorem child_ne_parent (hn : h a = some n) (hc : n.child b = some c) : some c ≠ n.parent := by
  intro heq
  obtain ⟨m, hm, -, hext⟩ := hl.child a n b c hn hc
  have hroot : a ≠ root := by
    rintro rfl
    obtain ⟨k, hk, -, -, hpar⟩ := hl.root_node
    obtain rfl : n = k := Option.some.inj (hn.symm.trans hk)
    rw [hpar] at heq
    cases heq
  obtain ⟨p, pn, b', hpar, hpn, hchild⟩ := hl.parent a n hn hroot
  obtain ⟨n', hn', -, hext'⟩ := hl.child p pn b' a hpn hchild
  obtain rfl : n = n' := Option.some.inj (hn.symm.trans hn')
  rw [hpar, Option.some.injEq] at heq
  obtain rfl : m = pn := Option.some.inj (hm.symm.trans (heq ▸ hpn))
  exact absurd (hext.len_lt.trans hext'.len_lt) (lt_irrefl _)

/-- The turn at a node that is come back to. -/
theorem walks_up (hn : h a = some n) (hc : n.child b = some c) :
    Walks h test (some a) (some c) []
      (bif b then n.parent else (n.child true).or n.parent) (some a) := by
  refine ⟨1, fun fuel s => ?_⟩
  rw [walkLoop, hn]
  simp only [Option.bind_eq_bind, Option.bind_some, if_neg (hl.child_ne_parent hn hc), visitAll,
    Bool.false_eq_true, if_false]
  cases b with
  | false => rw [if_pos hc.symm, cond_false]
  | true =>
    have hne : some c ≠ n.child false := by
      intro heq
      have := (hl.child_unique hn hc hn heq.symm).2
      cases this
    rw [if_neg hne, cond_true]

/-- From a node the walk goes through the nodes below it and back up. -/
theorem walks_subtree (hn : h a = some n) (hdepth : 32 < depth + n.len) :
    Walks h test (some a) n.parent (preorder h depth a) n.parent (some a) := by
  induction depth generalizing a n with
  | zero =>
    have hle := (hl.network a n hn).len_le
    exact absurd hdepth (by rw [Nat.zero_add]; exact Nat.not_lt.2 hle)
  | succ depth ih =>
    have hbelow : ∀ b c, n.child b = some c →
        Walks h test (some c) (some a) (preorder h depth c) (some a) (some c) := by
      intro b c hc
      obtain ⟨m, hm, hpar, hext⟩ := hl.child a n b c hn hc
      have hlt := hext.len_lt
      have := ih hm (by omega)
      rwa [hpar] at this
    have htrue : Walks h test ((n.child true).or n.parent) (some a)
        ((n.child true).elim [] (preorder h depth)) n.parent (some a) := by
      cases hc : n.child true with
      | none => exact Walks.refl _ _
      | some c =>
        have := (hbelow true c hc).trans (hl.walks_up hn hc)
        rwa [List.append_nil] at this
    have hfalse : Walks h test (((n.child false).or (n.child true)).or n.parent) (some a)
        ((n.child false).elim [] (preorder h depth) ++
          (n.child true).elim [] (preorder h depth)) n.parent (some a) := by
      cases hc : n.child false with
      | none => simpa using htrue
      | some c =>
        have := ((hbelow false c hc).trans (hl.walks_up hn hc)).trans htrue
        rwa [List.append_nil] at this
    rw [preorder_succ hn]
    exact (walks_down hn).trans hfalse

/-- The walk ends, and has visited the nodes in their order. -/
theorem ipradixWalk_eq (test : BitVec 32 → BitVec 32 → Option δ → σ → Bool × σ) (s : σ) :
    ∃ turns, ∀ fuel ≥ turns,
      ipradixWalk fuel root test s h = some (visitAll test (nodesOf h root) s).2 := by
  obtain ⟨n, hn, -, -, hpar⟩ := hl.root_node
  obtain ⟨turns, hturns⟩ := @walks_subtree δ σ h root root 33 n test hl hn (by omega)
  refine ⟨turns, fun fuel hfuel => ?_⟩
  obtain ⟨fuel, rfl⟩ := Nat.exists_eq_add_of_le' hfuel
  rw [hpar] at hturns
  rw [ipradixWalk, hturns, walkLoop, ite_self]
  rfl

/-! ## Each node once -/

theorem mem_preorder_self (hn : h a = some n) (hdepth : 32 < depth + n.len) :
    (a, n) ∈ preorder h depth a := by
  have hle : n.len ≤ 32 := (hl.network a n hn).len_le
  obtain ⟨depth, rfl⟩ := Nat.exists_eq_succ_of_ne_zero (show depth ≠ 0 by omega)
  rw [preorder_succ hn]
  exact List.mem_cons_self

/-- What is found from a node down has the prefix of the node. -/
theorem of_mem_preorder {x : ℕ × RadixNode δ} (hn : h a = some n) (hx : x ∈ preorder h depth a) :
    h x.1 = some x.2 ∧ (x = (a, n) ∨ ∃ b, Extends n x.2 b) := by
  induction depth generalizing a n with
  | zero => cases hx
  | succ depth ih =>
    rw [preorder_succ hn, List.mem_cons, List.mem_append] at hx
    have hbelow : ∀ b, x ∈ (n.child b).elim [] (preorder h depth) →
        h x.1 = some x.2 ∧ ∃ b, Extends n x.2 b := by
      intro b hb
      cases hc : n.child b with
      | none =>
        rw [hc] at hb
        cases hb
      | some c =>
        rw [hc] at hb
        obtain ⟨m, hm, -, hext⟩ := hl.child a n b c hn hc
        obtain ⟨hheap, rfl | ⟨b', hext'⟩⟩ := ih hm hb
        · exact ⟨hheap, b, hext⟩
        · exact ⟨hheap, b, hext.trans hext'⟩
    obtain rfl | hx | hx := hx
    · exact ⟨hn, .inl rfl⟩
    · exact (hbelow false hx).imp_right .inr
    · exact (hbelow true hx).imp_right .inr

theorem below_of_mem {x : ℕ × RadixNode δ} (hn : h a = some n) (hc : n.child b = some c)
    (hx : x ∈ preorder h depth c) : Extends n x.2 b := by
  obtain ⟨m, hm, -, hext⟩ := hl.child a n b c hn hc
  obtain ⟨-, rfl | ⟨b', hext'⟩⟩ := hl.of_mem_preorder hm hx
  · exact hext
  · exact hext.trans hext'

/-- No node is visited twice. -/
theorem nodup_preorder (hn : h a = some n) : (preorder h depth a).Nodup := by
  induction depth generalizing a n with
  | zero => exact List.nodup_nil
  | succ depth ih =>
    have hbelow : ∀ b, ((n.child b).elim [] (preorder h depth)).Nodup ∧
        ∀ x ∈ (n.child b).elim [] (preorder h depth), Extends n x.2 b := by
      intro b
      cases hc : n.child b with
      | none => exact ⟨List.nodup_nil, fun x hx => absurd hx List.not_mem_nil⟩
      | some c =>
        obtain ⟨m, hm, -, -⟩ := hl.child a n b c hn hc
        exact ⟨ih hm, fun x hx => hl.below_of_mem hn hc hx⟩
    rw [preorder_succ hn, List.nodup_cons, List.mem_append]
    constructor
    · rintro (hx | hx)
      · exact absurd ((hbelow false).2 _ hx).len_lt (lt_irrefl _)
      · exact absurd ((hbelow true).2 _ hx).len_lt (lt_irrefl _)
    · refine List.nodup_append.2 ⟨(hbelow false).1, (hbelow true).1, fun x hx y hy heq => ?_⟩
      have hfalse := ((hbelow false).2 x hx).bit
      rw [heq, ((hbelow true).2 y hy).bit] at hfalse
      cases hfalse

/-- With a node its children are visited. -/
theorem mem_preorder_child {p x : ℕ} {pn m : RadixNode δ} (hn : h a = some n)
    (hdepth : 32 < depth + n.len) (hp : (p, pn) ∈ preorder h depth a)
    (hx : pn.child b = some x) (hm : h x = some m) : (x, m) ∈ preorder h depth a := by
  induction depth generalizing a n with
  | zero => cases hp
  | succ depth ih =>
    have hput : ∀ b c, n.child b = some c → (x, m) ∈ preorder h depth c →
        (x, m) ∈ preorder h (depth + 1) a := by
      intro b c hc hmem
      rw [preorder_succ hn]
      refine List.mem_cons_of_mem _ (List.mem_append.2 ?_)
      cases b with
      | false => exact .inl (by rwa [hc])
      | true => exact .inr (by rwa [hc])
    rw [preorder_succ hn, List.mem_cons, List.mem_append] at hp
    have hbelow : ∀ b', (p, pn) ∈ (n.child b').elim [] (preorder h depth) →
        (x, m) ∈ preorder h (depth + 1) a := by
      intro b' hb
      cases hc : n.child b' with
      | none =>
        rw [hc] at hb
        cases hb
      | some c =>
        rw [hc] at hb
        obtain ⟨k, hk, -, hext⟩ := hl.child a n b' c hn hc
        have hlt := hext.len_lt
        exact hput b' c hc (ih hk (by omega) hb)
    obtain heq | hp | hp := hp
    · obtain ⟨rfl, rfl⟩ := Prod.mk.inj heq
      obtain ⟨k, hk, -, hext⟩ := hl.child p pn b x hn hx
      obtain rfl : m = k := Option.some.inj (hm.symm.trans hk)
      have hlt := hext.len_lt
      exact hput b x hx (hl.mem_preorder_self hm (by omega))
    · exact hbelow false hp
    · exact hbelow true hp

/-- Every node is visited. -/
theorem mem_nodesOf {x : ℕ} {m : RadixNode δ} : (x, m) ∈ nodesOf h root ↔ h x = some m := by
  obtain ⟨r, hr, -⟩ := hl.root_node
  constructor
  · intro hx
    exact (hl.of_mem_preorder hr hx).1
  · intro hm
    induction hlen : m.len using Nat.strong_induction_on generalizing x m with
    | _ len ih =>
      by_cases hroot : x = root
      · subst hroot
        obtain rfl : m = r := Option.some.inj (hm.symm.trans hr)
        exact hl.mem_preorder_self hm (by omega)
      · obtain ⟨p, pn, b, -, hpn, hchild⟩ := hl.parent x m hm hroot
        obtain ⟨m', hm', -, hext⟩ := hl.child p pn b x hpn hchild
        obtain rfl : m = m' := Option.some.inj (hm.symm.trans hm')
        exact hl.mem_preorder_child hr (by omega) (ih pn.len (hlen ▸ hext.len_lt) hpn rfl) hchild hm

theorem nodup_nodesOf : (nodesOf h root).Nodup := by
  obtain ⟨r, hr, -⟩ := hl.root_node
  exact hl.nodup_preorder hr

end RadixLinks

end

end Rtcs
end Mqx
