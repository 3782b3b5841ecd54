import Mqx.Rtcs.Ipradix

/-!
# Insertion into the radix tree

A node is put between a node and one of its children, or taken out from there.
Both edits keep the links between the nodes, and only the node that carries the
inserted network changes its data.
-/

namespace Mqx
namespace Rtcs

open BitVec

section edits

variable {δ : Type} {root a c p new x : ℕ} {b : Bool} {h h' : RadixHeap δ}
  {n m k pn newn : RadixNode δ} {ip mask : BitVec 32}

/-- Some node carries the data `d` for the network. -/
def Holds (h : RadixHeap δ) (ip mask : BitVec 32) (d : δ) : Prop :=
  ∃ a n, h a = some n ∧ n.ip = ip ∧ n.mask = mask ∧ n.data = some d

/-- Every node without data has two children, except the root and `e`. -/
def FullBut (root : ℕ) (h : RadixHeap δ) (e : Option ℕ) : Prop :=
  ∀ a n, h a = some n → a ≠ root → e ≠ some a → n.data = none → ∀ b, (n.child b).isSome

theorem RadixLinks.child_ne (hl : RadixLinks root h) (hp : h p = some pn)
    (hc : pn.child b = some c) : c ≠ p := by
  rintro rfl
  obtain ⟨m, hm, -, hext⟩ := hl.child c pn b c hp hc
  obtain rfl : pn = m := Option.some.inj (hp.symm.trans hm)
  exact absurd hext.len_lt (lt_irrefl _)

/-- A node has only one parent, and is its child for one bit. -/
theorem RadixLinks.child_unique (hl : RadixLinks root h) {b' : Bool} (hp : h p = some pn)
    (hc : pn.child b = some c) (ha : h a = some n) (hc' : n.child b' = some c) :
    a = p ∧ b' = b := by
  obtain ⟨m, hm, hpar, hext⟩ := hl.child p pn b c hp hc
  obtain ⟨m', hm', hpar', hext'⟩ := hl.child a n b' c ha hc'
  obtain rfl : m = m' := Option.some.inj (hm.symm.trans hm')
  obtain rfl : p = a := Option.some.inj (hpar.symm.trans hpar')
  obtain rfl : n = pn := Option.some.inj (ha.symm.trans hp)
  exact ⟨rfl, hext'.bit.symm.trans hext.bit⟩

/-- `new` is put between `p` and its child for the bit `b`, if there is one. -/
structure Spliced (h h' : RadixHeap δ) (p : ℕ) (pn : RadixNode δ) (b : Bool) (new : ℕ)
    (newn : RadixNode δ) : Prop where
  at_new : h' new = some newn
  at_parent : h' p = some { pn with child := Function.update pn.child b (some new) }
  at_child : ∀ c m, pn.child b = some c → h c = some m → h' c = some { m with parent := some new }
  other : ∀ x, x ≠ new → x ≠ p → pn.child b ≠ some x → h' x = h x

/-- Where a node may be put. -/
structure Fits (h : RadixHeap δ) (p : ℕ) (pn : RadixNode δ) (b : Bool) (newn : RadixNode δ) :
    Prop where
  network : IsNetwork newn.ip newn.mask
  parent : newn.parent = some p
  extends_parent : Extends pn newn b
  child : ∀ b' c, newn.child b' = some c →
    pn.child b = some c ∧ ∀ m, h c = some m → Extends newn m b'
  keeps : ∀ c, pn.child b = some c → ∃ b', newn.child b' = some c

/-- A node after the edit is the new one or an old one with other pointers. -/
theorem Spliced.cases (hs : Spliced h h' p pn b new newn) (hl : RadixLinks root h)
    (hp : h p = some pn) (hx : h' x = some n) :
    (x = new ∧ n = newn) ∨
    (x = p ∧ n = { pn with child := Function.update pn.child b (some new) }) ∨
    (∃ m, pn.child b = some x ∧ h x = some m ∧ n = { m with parent := some new }) ∨
    (x ≠ new ∧ x ≠ p ∧ pn.child b ≠ some x ∧ h x = some n) := by
  by_cases h₁ : x = new
  · subst h₁
    exact .inl ⟨rfl, Option.some.inj (hx.symm.trans hs.at_new)⟩
  · by_cases h₂ : x = p
    · subst h₂
      exact .inr (.inl ⟨rfl, Option.some.inj (hx.symm.trans hs.at_parent)⟩)
    · by_cases h₃ : pn.child b = some x
      · obtain ⟨m, hm, -, -⟩ := hl.child p pn b x hp h₃
        exact .inr (.inr (.inl ⟨m, h₃, hm, Option.some.inj (hx.symm.trans (hs.at_child x m h₃ hm))⟩))
      · exact .inr (.inr (.inr ⟨h₁, h₂, h₃, (hs.other x h₁ h₂ h₃) ▸ hx⟩))

/-- An old node is still there, perhaps with other pointers. -/
theorem Spliced.kept (hs : Spliced h h' p pn b new newn) (hp : h p = some pn)
    (hfresh : h new = none) (hx : h x = some n) :
    ∃ n', h' x = some n' ∧ n'.ip = n.ip ∧ n'.mask = n.mask ∧ n'.data = n.data ∧
      (pn.child b ≠ some x → n'.parent = n.parent) ∧ (x ≠ p → n'.child = n.child) := by
  have h₁ : x ≠ new := by
    rintro rfl
    rw [hfresh] at hx
    cases hx
  by_cases h₂ : x = p
  · subst h₂
    obtain rfl : n = pn := Option.some.inj (hx.symm.trans hp)
    exact ⟨_, hs.at_parent, rfl, rfl, rfl, fun _ => rfl, fun h => absurd rfl h⟩
  · by_cases h₃ : pn.child b = some x
    · exact ⟨_, hs.at_child x n h₃ hx, rfl, rfl, rfl, fun h => absurd h₃ h, fun _ => rfl⟩
    · exact ⟨n, (hs.other x h₁ h₂ h₃).trans hx, rfl, rfl, rfl, fun _ => rfl, fun _ => rfl⟩

theorem Extends.congr {n' m' : RadixNode δ} (he : Extends n m b) (h₁ : n'.ip = n.ip)
    (h₂ : n'.mask = n.mask) (h₃ : m'.ip = m.ip) (h₄ : m'.mask = m.mask) : Extends n' m' b := by
  obtain ⟨hlt, hagree, hbit⟩ := he
  unfold RadixNode.len at hlt hagree hbit
  constructor
  · rw [RadixNode.len, RadixNode.len, h₂, h₄]
    exact hlt
  · rw [RadixNode.len, h₁, h₂, h₃]
    exact hagree
  · rw [RadixNode.len, h₂, h₃]
    exact hbit

theorem Spliced.links (hs : Spliced h h' p pn b new newn) (hl : RadixLinks root h)
    (hp : h p = some pn) (hfresh : h new = none) (hfit : Fits h p pn b newn) :
    RadixLinks root h' := by
  constructor
  · obtain ⟨r, hr, hmask, hip, hpar⟩ := hl.root_node
    obtain ⟨r', hr', h₁, h₂, -, h₃, -⟩ := hs.kept hp hfresh hr
    refine ⟨r', hr', h₂.trans hmask, h₁.trans hip, (h₃ ?_).trans hpar⟩
    intro hc
    obtain ⟨m, hm, hpar', -⟩ := hl.child p pn b root hp hc
    obtain rfl : r = m := Option.some.inj (hr.symm.trans hm)
    rw [hpar] at hpar'
    cases hpar'
  · intro x n hx
    rcases hs.cases hl hp hx with ⟨rfl, rfl⟩ | ⟨rfl, rfl⟩ | ⟨m, -, hm, rfl⟩ | ⟨-, -, -, hn⟩
    · exact hfit.network
    · exact hl.network x pn hp
    · exact hl.network x m hm
    · exact hl.network x n hn
  · intro x n b' c hx hc
    -- A child that is not the one below the new node keeps its parent.
    have hold : ∀ n₀, h x = some n₀ → n₀.ip = n.ip → n₀.mask = n.mask → n₀.child b' = some c →
        pn.child b ≠ some c → ∃ m, h' c = some m ∧ m.parent = some x ∧ Extends n m b' := by
      intro n₀ hn₀ hip hmask hc₀ hne
      obtain ⟨m, hm, hpar, hext⟩ := hl.child x n₀ b' c hn₀ hc₀
      obtain ⟨m', hm', h₁, h₂, -, h₃, -⟩ := hs.kept hp hfresh hm
      exact ⟨m', hm', (h₃ hne).trans hpar, hext.congr hip.symm hmask.symm h₁ h₂⟩
    rcases hs.cases hl hp hx with ⟨rfl, rfl⟩ | ⟨rfl, rfl⟩ | ⟨m, hcx, hm, rfl⟩ | ⟨-, hxp, -, hn⟩
    · obtain ⟨hpc, hext⟩ := hfit.child b' c hc
      obtain ⟨m, hm, -, -⟩ := hl.child p pn b c hp hpc
      exact ⟨_, hs.at_child c m hpc hm, rfl, (hext m hm).congr rfl rfl rfl rfl⟩
    · by_cases hb : b' = b
      · subst hb
        simp only [Function.update_self, Option.some.injEq] at hc
        subst hc
        exact ⟨newn, hs.at_new, hfit.parent, hfit.extends_parent.congr rfl rfl rfl rfl⟩
      · simp only [Function.update_of_ne hb] at hc
        refine hold pn hp rfl rfl hc fun hc' => hb ?_
        exact (hl.child_unique hp hc' hp hc).2
    · refine hold m hm rfl rfl hc fun hc' => ?_
      exact hl.child_ne hp hcx (hl.child_unique hp hc' hm hc).1
    · refine hold n hn rfl rfl hc fun hc' => hxp ?_
      exact (hl.child_unique hp hc' hn hc).1
  · intro x n hx hroot
    -- A node above the edit keeps its children, but for the one at the edit.
    have hold : ∀ n₀, h x = some n₀ → n₀.parent = n.parent → pn.child b ≠ some x →
        ∃ q qn b', n.parent = some q ∧ h' q = some qn ∧ qn.child b' = some x := by
      intro n₀ hn₀ hpar hne
      obtain ⟨q, qn, b', hq, hqn, hqx⟩ := hl.parent x n₀ hn₀ hroot
      obtain ⟨qn', hqn', -, -, -, -, hchild⟩ := hs.kept hp hfresh hqn
      by_cases hqp : q = p
      · subst hqp
        obtain rfl : qn = pn := Option.some.inj (hqn.symm.trans hp)
        refine ⟨q, _, b', hpar ▸ hq, hs.at_parent, ?_⟩
        dsimp only
        rw [Function.update_of_ne]
        · exact hqx
        · rintro rfl
          exact hne hqx
      · exact ⟨q, qn', b', hpar ▸ hq, hqn', by rw [hchild hqp]; exact hqx⟩
    rcases hs.cases hl hp hx with ⟨rfl, rfl⟩ | ⟨rfl, rfl⟩ | ⟨m, hcx, hm, rfl⟩ | ⟨-, -, hne, hn⟩
    · exact ⟨p, _, b, hfit.parent, hs.at_parent, Function.update_self b _ _⟩
    · exact hold pn hp rfl fun hc => hl.child_ne hp hc rfl
    · obtain ⟨b', hb'⟩ := hfit.keeps x hcx
      exact ⟨new, newn, b', rfl, hs.at_new, hb'⟩
    · exact hold n hn rfl hne

theorem Spliced.holds (hs : Spliced h h' p pn b new newn) (hl : RadixLinks root h)
    (hp : h p = some pn) (hfresh : h new = none) (hdata : newn.data = none) (d : δ) :
    Holds h' ip mask d ↔ Holds h ip mask d := by
  constructor
  · rintro ⟨x, n, hx, hip, hmask, hd⟩
    rcases hs.cases hl hp hx with ⟨rfl, rfl⟩ | ⟨rfl, rfl⟩ | ⟨m, -, hm, rfl⟩ | ⟨-, -, -, hn⟩
    · rw [hdata] at hd
      cases hd
    · exact ⟨x, pn, hp, hip, hmask, hd⟩
    · exact ⟨x, m, hm, hip, hmask, hd⟩
    · exact ⟨x, n, hn, hip, hmask, hd⟩
  · rintro ⟨x, n, hx, hip, hmask, hd⟩
    obtain ⟨n', hn', h₁, h₂, h₃, -, -⟩ := hs.kept hp hfresh hx
    exact ⟨x, n', hn', h₁.trans hip, h₂.trans hmask, h₃.trans hd⟩

/-- The parent of the new node stays full, or becomes it. -/
theorem Spliced.full {e : Option ℕ} (hs : Spliced h h' p pn b new newn) (hl : RadixLinks root h)
    (hp : h p = some pn) (hfull : FullBut root h e)
    (he : ∀ x, e = some x → x = p ∧ (pn.child !b).isSome) : FullBut root h' (some new) := by
  intro x n hx hroot hne hdata b'
  have hxe : e = some x → x = p ∧ (pn.child !b).isSome := he x
  rcases hs.cases hl hp hx with ⟨rfl, rfl⟩ | ⟨rfl, rfl⟩ | ⟨m, hcx, hm, rfl⟩ | ⟨-, hxp, -, hn⟩
  · exact absurd rfl hne
  · by_cases hb : b' = b
    · subst hb
      simp
    · dsimp only
      rw [Function.update_of_ne hb]
      by_cases hxe' : e = some x
      · obtain rfl : b' = !b := Bool.eq_not.mpr hb
        exact (hxe hxe').2
      · exact hfull x pn hp hroot hxe' hdata b'
  · exact hfull x m hm hroot (fun hc => hl.child_ne hp hcx (hxe hc).1) hdata b'
  · exact hfull x n hn hroot (fun hc => hxp (hxe hc).1) hdata b'

/-- `a` is taken out from between `p` and its only child `oc`, if it has one. -/
structure Removed (h h' : RadixHeap δ) (a p : ℕ) (pn : RadixNode δ) (b : Bool)
    (oc : Option ℕ) : Prop where
  at_node : h' a = none
  at_parent : h' p = some { pn with child := Function.update pn.child b oc }
  at_child : ∀ c m, oc = some c → h c = some m → h' c = some { m with parent := some p }
  other : ∀ x, x ≠ a → x ≠ p → oc ≠ some x → h' x = h x

/-- What is taken out: a node other than the root with at most one child. -/
structure Removable (root : ℕ) (h : RadixHeap δ) (a : ℕ) (n : RadixNode δ) (p : ℕ)
    (pn : RadixNode δ) (b : Bool) (oc : Option ℕ) : Prop where
  node : h a = some n
  parent_node : h p = some pn
  edge : pn.child b = some a
  only : ∀ b' c, n.child b' = some c → oc = some c
  child : ∀ c, oc = some c → ∃ b', n.child b' = some c

section removal

variable {oc : Option ℕ} (hr : Removed h h' a p pn b oc) (hl : RadixLinks root h)
  (hn : Removable root h a n p pn b oc)

include hr hl hn

theorem Removed.cases (hx : h' x = some m) :
    x ≠ a ∧ ((x = p ∧ m = { pn with child := Function.update pn.child b oc }) ∨
    (∃ k, oc = some x ∧ h x = some k ∧ m = { k with parent := some p }) ∨
    (x ≠ p ∧ oc ≠ some x ∧ h x = some m)) := by
  have h₁ : x ≠ a := by
    rintro rfl
    rw [hr.at_node] at hx
    cases hx
  refine ⟨h₁, ?_⟩
  by_cases h₂ : x = p
  · subst h₂
    exact .inl ⟨rfl, Option.some.inj (hx.symm.trans hr.at_parent)⟩
  · by_cases h₃ : oc = some x
    · obtain ⟨b', hb'⟩ := hn.child x h₃
      obtain ⟨k, hk, -, -⟩ := hl.child a n b' x hn.node hb'
      exact .inr (.inl ⟨k, h₃, hk, Option.some.inj (hx.symm.trans (hr.at_child x k h₃ hk))⟩)
    · exact .inr (.inr ⟨h₂, h₃, (hr.other x h₁ h₂ h₃) ▸ hx⟩)

omit hl in
theorem Removed.kept (hxa : x ≠ a) (hx : h x = some m) :
    ∃ m', h' x = some m' ∧ m'.ip = m.ip ∧ m'.mask = m.mask ∧ m'.data = m.data ∧
      (oc ≠ some x → m'.parent = m.parent) ∧ (x ≠ p → m'.child = m.child) := by
  by_cases h₂ : x = p
  · subst h₂
    obtain rfl : m = pn := Option.some.inj (hx.symm.trans hn.parent_node)
    exact ⟨_, hr.at_parent, rfl, rfl, rfl, fun _ => rfl, fun h => absurd rfl h⟩
  · by_cases h₃ : oc = some x
    · exact ⟨_, hr.at_child x m h₃ hx, rfl, rfl, rfl, fun h => absurd h₃ h, fun _ => rfl⟩
    · exact ⟨m, (hr.other x hxa h₂ h₃).trans hx, rfl, rfl, rfl, fun _ => rfl, fun _ => rfl⟩

theorem Removed.links (hroot : a ≠ root) : RadixLinks root h' := by
  obtain ⟨n', hn', hpar, hext⟩ := hl.child p pn b a hn.parent_node hn.edge
  obtain rfl : n = n' := Option.some.inj (hn.node.symm.trans hn')
  -- The child of the node that goes is not an ancestor of it.
  have hoc : ∀ c, oc = some c → ∃ b' m, h c = some m ∧ n.child b' = some c ∧ Extends pn m b := by
    intro c hc
    obtain ⟨b', hb'⟩ := hn.child c hc
    obtain ⟨m, hm, -, hext'⟩ := hl.child a n b' c hn.node hb'
    exact ⟨b', m, hm, hb', hext.trans hext'⟩
  have hocp : oc ≠ some p := by
    intro hc
    obtain ⟨-, m, hm, -, hext'⟩ := hoc p hc
    obtain rfl : pn = m := Option.some.inj (hn.parent_node.symm.trans hm)
    exact absurd hext'.len_lt (lt_irrefl _)
  constructor
  · obtain ⟨r, hr₀, hmask, hip, hpar₀⟩ := hl.root_node
    obtain ⟨r', hr', h₁, h₂, -, h₃, -⟩ := hr.kept hn (Ne.symm hroot) hr₀
    refine ⟨r', hr', h₂.trans hmask, h₁.trans hip, (h₃ ?_).trans hpar₀⟩
    intro hc
    obtain ⟨b', hb'⟩ := hn.child root hc
    obtain ⟨m, hm, hpar', -⟩ := hl.child a n b' root hn.node hb'
    obtain rfl : r = m := Option.some.inj (hr₀.symm.trans hm)
    rw [hpar₀] at hpar'
    cases hpar'
  · intro x m hx
    obtain ⟨-, ⟨rfl, rfl⟩ | ⟨k, -, hk, rfl⟩ | ⟨-, -, hm⟩⟩ := hr.cases hl hn hx
    · exact hl.network x pn hn.parent_node
    · exact hl.network x k hk
    · exact hl.network x m hm
  · intro x m b' c hx hc
    have hold : ∀ m₀, h x = some m₀ → m₀.ip = m.ip → m₀.mask = m.mask → m₀.child b' = some c →
        c ≠ a → oc ≠ some c → ∃ k, h' c = some k ∧ k.parent = some x ∧ Extends m k b' := by
      intro m₀ hm₀ hip hmask hc₀ hca hne
      obtain ⟨k, hk, hpar', hext'⟩ := hl.child x m₀ b' c hm₀ hc₀
      obtain ⟨k', hk', h₁, h₂, -, h₃, -⟩ := hr.kept hn hca hk
      exact ⟨k', hk', (h₃ hne).trans hpar', hext'.congr hip.symm hmask.symm h₁ h₂⟩
    -- Below another node than `a` or `p` there is neither `a` nor its child.
    have hca : ∀ m₀, h x = some m₀ → m₀.child b' = some c → x ≠ p ∨ b' ≠ b → c ≠ a := by
      rintro m₀ hm₀ hc₀ hxp rfl
      obtain ⟨rfl, rfl⟩ := hl.child_unique hn.parent_node hn.edge hm₀ hc₀
      simp at hxp
    have hcoc : ∀ m₀, h x = some m₀ → m₀.child b' = some c → x ≠ a → oc ≠ some c := by
      intro m₀ hm₀ hc₀ hxa hco
      obtain ⟨b'', -, -, hb'', -⟩ := hoc c hco
      exact hxa (hl.child_unique hn.node hb'' hm₀ hc₀).1
    obtain ⟨hxa, ⟨rfl, rfl⟩ | ⟨k, hox, hk, rfl⟩ | ⟨hxp, hxo, hm⟩⟩ := hr.cases hl hn hx
    · by_cases hb : b' = b
      · subst hb
        simp only [Function.update_self] at hc
        obtain ⟨-, m, hm, -, hext'⟩ := hoc c hc
        exact ⟨_, hr.at_child c m hc hm, rfl, hext'.congr rfl rfl rfl rfl⟩
      · simp only [Function.update_of_ne hb] at hc
        exact hold pn hn.parent_node rfl rfl hc (hca pn hn.parent_node hc (.inr hb))
          (hcoc pn hn.parent_node hc hxa)
    · have hxp : x ≠ p := by
        rintro rfl
        exact hocp hox
      exact hold k hk rfl rfl hc (hca k hk hc (.inl hxp)) (hcoc k hk hc hxa)
    · exact hold m hm rfl rfl hc (hca m hm hc (.inl hxp)) (hcoc m hm hc hxa)
  · intro x m hx hxroot
    have hold : ∀ m₀, h x = some m₀ → m₀.parent = m.parent → x ≠ a → oc ≠ some x →
        ∃ q qn b', m.parent = some q ∧ h' q = some qn ∧ qn.child b' = some x := by
      intro m₀ hm₀ hpar' hxa hxo
      obtain ⟨q, qn, b', hq, hqn, hqx⟩ := hl.parent x m₀ hm₀ hxroot
      have hqa : q ≠ a := by
        rintro rfl
        obtain rfl : n = qn := Option.some.inj (hn.node.symm.trans hqn)
        exact hxo (hn.only b' x hqx)
      obtain ⟨qn', hqn', -, -, -, -, hchild⟩ := hr.kept hn hqa hqn
      by_cases hqp : q = p
      · subst hqp
        obtain rfl : qn = pn := Option.some.inj (hqn.symm.trans hn.parent_node)
        refine ⟨q, _, b', hpar' ▸ hq, hr.at_parent, ?_⟩
        dsimp only
        rw [Function.update_of_ne]
        · exact hqx
        · rintro rfl
          exact hxa (Option.some.inj (hqx.symm.trans hn.edge))
      · exact ⟨q, qn', b', hpar' ▸ hq, hqn', by rw [hchild hqp]; exact hqx⟩
    obtain ⟨hxa, ⟨rfl, rfl⟩ | ⟨k, hox, hk, rfl⟩ | ⟨hxp, hxo, hm⟩⟩ := hr.cases hl hn hx
    · exact hold pn hn.parent_node rfl hxa hocp
    · refine ⟨p, _, b, rfl, hr.at_parent, ?_⟩
      rw [← hox]
      exact Function.update_self b _ _
    · exact hold m hm rfl hxa hxo

theorem Removed.holds (hdata : n.data = none) (d : δ) :
    Holds h' ip mask d ↔ Holds h ip mask d := by
  constructor
  · rintro ⟨x, m, hx, hip, hmask, hd⟩
    obtain ⟨-, ⟨rfl, rfl⟩ | ⟨k, -, hk, rfl⟩ | ⟨-, -, hm⟩⟩ := hr.cases hl hn hx
    · exact ⟨x, pn, hn.parent_node, hip, hmask, hd⟩
    · exact ⟨x, k, hk, hip, hmask, hd⟩
    · exact ⟨x, m, hm, hip, hmask, hd⟩
  · rintro ⟨x, m, hx, hip, hmask, hd⟩
    have hxa : x ≠ a := by
      rintro rfl
      obtain rfl : m = n := Option.some.inj (hx.symm.trans hn.node)
      rw [hdata] at hd
      cases hd
    obtain ⟨m', hm', h₁, h₂, h₃, -, -⟩ := hr.kept hn hxa hx
    exact ⟨x, m', hm', h₁.trans hip, h₂.trans hmask, h₃.trans hd⟩

theorem Removed.full (hfull : FullBut root h (some a)) : FullBut root h' (some p) := by
  intro x m hx hroot hne hdata b'
  obtain ⟨hxa, ⟨rfl, rfl⟩ | ⟨k, hox, hk, rfl⟩ | ⟨hxp, hxo, hm⟩⟩ := hr.cases hl hn hx
  · exact absurd rfl hne
  · exact hfull x k hk hroot (fun hc => hxa (Option.some.inj hc).symm) hdata b'
  · exact hfull x m hm hroot (fun hc => hxa (Option.some.inj hc).symm) hdata b'

end removal

theorem FullBut.of_node {e : ℕ} (hfull : FullBut root h (some e)) (hn : h e = some n)
    (hok : e = root ∨ n.data ≠ none ∨ ∀ b, (n.child b).isSome) : FullBut root h none := by
  intro x m hx hroot _ hdata b'
  by_cases hxe : x = e
  · subst hxe
    obtain rfl : m = n := Option.some.inj (hx.symm.trans hn)
    rcases hok with hok | hok | hok
    · exact absurd hok hroot
    · exact absurd hdata hok
    · exact hok b'
  · exact hfull x m hx hroot (fun hc => hxe (Option.some.inj hc).symm) hdata b'

/-- The pointer writes of the clean-up loop. -/
theorem removed_relink {c : ℕ} (hp : h p = some pn) (hpa : p ≠ a) (hca : c ≠ a) (hcp : c ≠ p) :
    Removed h (((h.setChild p b (some c)).setParent c p).free a) a p pn b (some c) := by
  constructor
  · simp [RadixHeap.free]
  · simp [RadixHeap.free, RadixHeap.setParent, RadixHeap.setChild, hp, hpa, hcp.symm]
  · intro c' m hc hm
    obtain rfl : c = c' := Option.some.inj hc
    simp [RadixHeap.free, RadixHeap.setParent, RadixHeap.setChild, hm, hca, hcp]
  · intro x hxa hxp hxc
    have hne : x ≠ c := fun h => hxc (congrArg some h.symm)
    simp [RadixHeap.free, RadixHeap.setParent, RadixHeap.setChild, hxa, hxp, hne]

theorem removed_unlink (hp : h p = some pn) (hpa : p ≠ a) :
    Removed h ((h.setChild p b none).free a) a p pn b none := by
  constructor
  · simp [RadixHeap.free]
  · simp [RadixHeap.free, RadixHeap.setChild, hp, hpa]
  · intro c' m hc
    cases hc
  · intro x hxa hxp _
    simp [RadixHeap.free, RadixHeap.setChild, hxa, hxp]

/-- The clean-up takes out what is not needed and nothing else. -/
theorem pruneNodes_spec {fuel : ℕ} (hl : RadixLinks root h) (hfull : FullBut root h (some a))
    (hn : h a = some n) (hfuel : n.len < fuel) :
    ∃ h', pruneNodes fuel h a = some h' ∧ RadixLinks root h' ∧ FullBut root h' none ∧
      ∀ ip mask d, Holds h' ip mask d ↔ Holds h ip mask d := by
  induction fuel generalizing h a n with
  | zero => exact absurd hfuel (Nat.not_lt_zero _)
  | succ fuel ih =>
    by_cases hdata : n.data.isSome
    · refine ⟨h, by simp [pruneNodes, hn, hdata], hl, ?_, fun _ _ _ => Iff.rfl⟩
      refine hfull.of_node hn (.inr (.inl ?_))
      exact Option.isSome_iff_ne_none.mp hdata
    · by_cases hroot : a = root
      · obtain ⟨r, hr, -, -, hpar⟩ := hl.root_node
        subst hroot
        obtain rfl : n = r := Option.some.inj (hn.symm.trans hr)
        exact ⟨h, by simp [pruneNodes, hn, hdata, hpar], hl, hfull.of_node hn (.inl rfl),
          fun _ _ _ => Iff.rfl⟩
      · obtain ⟨p, pn, b, hpar, hpn, hpa⟩ := hl.parent a n hn hroot
        by_cases hboth : (n.child false).isSome && (n.child true).isSome
        · refine ⟨h, ?_, hl, ?_, fun _ _ _ => Iff.rfl⟩
          · simp only [pruneNodes, hn, hpar, Option.bind_eq_bind, Option.bind_some, if_neg hdata,
              if_pos hboth]
          refine hfull.of_node hn (.inr (.inr ?_))
          rw [Bool.and_eq_true] at hboth
          rintro (_ | _)
          · exact hboth.1
          · exact hboth.2
        · have hedge : pn.child (if pn.child false = some a then false else true) = some a := by
            split_ifs with hfalse
            · exact hfalse
            · cases b with
              | false => exact absurd hpa hfalse
              | true => exact hpa
          generalize hchild : (if pn.child false = some a then false else true) = b' at hedge
          have hrem : Removable root h a n p pn b' ((n.child false).or (n.child true)) := by
            refine ⟨hn, hpn, hedge, ?_, ?_⟩
            · rintro (_ | _) c hc
              · rw [hc, Option.some_or]
              · have hnone : n.child false = none := by
                  rw [hc, Option.isSome_some, Bool.and_true, Option.not_isSome_iff_eq_none] at hboth
                  exact hboth
                rw [hnone, Option.none_or, hc]
            · intro c hc
              rcases Option.or_eq_some_iff.mp hc with hc | ⟨-, hc⟩
              · exact ⟨false, hc⟩
              · exact ⟨true, hc⟩
          have hne : p ≠ a := (hl.child_ne hpn hedge).symm
          obtain ⟨n', hn', -, hext⟩ := hl.child p pn b' a hpn hedge
          obtain rfl : n = n' := Option.some.inj (hn.symm.trans hn')
          have hdata' : n.data = none := Option.not_isSome_iff_eq_none.mp hdata
          -- The loop goes on at the parent, in the heap without the node.
          have hnext : ∀ h₁, Removed h h₁ a p pn b' ((n.child false).or (n.child true)) →
              ∃ h', pruneNodes fuel h₁ p = some h' ∧ RadixLinks root h' ∧ FullBut root h' none ∧
                ∀ ip mask d, Holds h' ip mask d ↔ Holds h ip mask d := by
            intro h₁ hr
            have hlen : pn.len < fuel := by
              have := hext.len_lt
              omega
            obtain ⟨h', hprune, hl', hfull', hholds⟩ :=
              ih (hr.links hl hrem hroot) (hr.full hl hrem hfull) hr.at_parent hlen
            refine ⟨h', hprune, hl', hfull', ?_⟩
            intro ip mask d
            rw [hholds, hr.holds hl hrem hdata']
          cases hoc : (n.child false).or (n.child true) with
          | none =>
            rw [hoc] at hnext
            obtain ⟨h', hprune, hrest⟩ := hnext _ (removed_unlink hpn hne)
            refine ⟨h', ?_, hrest⟩
            simp only [pruneNodes, hn, hpar, hpn, hchild, hoc, Option.bind_eq_bind,
              Option.bind_some, if_neg hdata, if_neg hboth, hprune]
          | some c =>
            rw [hoc] at hnext hrem
            obtain ⟨b'', hb''⟩ := hrem.child c rfl
            obtain ⟨m, hm, -, hext'⟩ := hl.child a n b'' c hn hb''
            have hcp : c ≠ p := by
              rintro rfl
              obtain rfl : pn = m := Option.some.inj (hpn.symm.trans hm)
              exact absurd (hext.len_lt.trans hext'.len_lt) (lt_irrefl _)
            obtain ⟨h', hprune, hrest⟩ :=
              hnext _ (removed_relink hpn hne (hl.child_ne hn hb'') hcp)
            refine ⟨h', ?_, hrest⟩
            simp only [pruneNodes, hn, hpar, hpn, hchild, hoc, Option.bind_eq_bind,
              Option.bind_some, if_neg hdata, if_neg hboth, hprune]

theorem FullBut.weaken (hfull : FullBut root h none) (e : Option ℕ) : FullBut root h e :=
  fun x m hx hroot _ => hfull x m hx hroot (by simp)

theorem goesTo_iff (hnet : IsNetwork ip mask) (hm : IsNetwork m.ip m.mask) :
    goesTo ip mask m = true ↔ m.len ≤ prefixLen mask ∧ AgreeTo m.len ip m.ip := by
  rw [goesTo, Bool.and_eq_true, Bool.not_eq_true', decide_eq_false_iff_not, beq_iff_eq,
    hnet.mask_lt_iff hm, hm.contains_iff, not_lt]
  rfl

/-- Where the search of an insertion ends. -/
structure Best (h : RadixHeap δ) (ip mask : BitVec 32) (node : ℕ) (k : RadixNode δ) : Prop where
  here : h node = some k
  agree : AgreeTo k.len ip k.ip
  len_le : k.len ≤ prefixLen mask
  /-- A node for the network itself is this one. -/
  exact_node : ∀ c m, h c = some m → m.ip = ip → m.mask = mask → c = node

theorem Best.ip_eq (hb : Best h ip mask a k) (hnet : IsNetwork ip mask) (hk : IsNetwork k.ip k.mask)
    (hlen : ¬ k.mask < mask) : k.ip = ip ∧ k.mask = mask := by
  have hle := hb.len_le
  rw [hk.mask_lt_iff hnet] at hlen
  have heq : prefixLen k.mask = prefixLen mask := le_antisymm hle (not_lt.mp hlen)
  exact hk.ext hnet heq hb.agree.symm

theorem search_best (hl : RadixLinks root h) (hnet : IsNetwork ip mask) :
    ∃ node k, search h ip (goesTo ip mask) 33 root =
        some (node, childOf ip k.mask, k.child (childOf ip k.mask)) ∧
      Best h ip mask node k ∧
      ∀ c m, k.child (childOf ip k.mask) = some c → h c = some m → goesTo ip mask m = false := by
  obtain ⟨r, hr, hmask, hip, -⟩ := hl.root_node
  obtain ⟨node, k, hk, hsearch, hreach, hend⟩ :
      ∃ node k, h node = some k ∧ search h ip (goesTo ip mask) 33 root =
          some (node, childOf ip k.mask, k.child (childOf ip k.mask)) ∧
        Relation.ReflTransGen (Below h ip (goesTo ip mask)) root node ∧
        ∀ c, ¬ Below h ip (goesTo ip mask) node c :=
    hl.search_spec hr (show 32 < 33 + r.len by omega)
  have hgo : node = root ∨ goesTo ip mask k = true := by
    rcases hreach.cases_tail with heq | ⟨q, -, -, k', -, -, hk', hgo⟩
    · exact .inl heq
    · obtain rfl : k = k' := Option.some.inj (hk.symm.trans hk')
      exact .inr hgo
  have hk' : k.len ≤ prefixLen mask ∧ AgreeTo k.len ip k.ip := by
    rcases hgo with rfl | hgo
    · obtain rfl : k = r := Option.some.inj (hk.symm.trans hr)
      have hzero : k.len = 0 := by rw [RadixNode.len, hmask, prefixLen_zero]
      rw [hzero]
      exact ⟨Nat.zero_le _, fun i hi => absurd hi (Nat.not_lt_zero i)⟩
    · exact (goesTo_iff hnet (hl.network node k hk)).mp hgo
  refine ⟨node, k, hsearch, ⟨hk, hk'.2, hk'.1, ?_⟩, ?_⟩
  · intro c m hm hmip hmmask
    have hlen : m.len = prefixLen mask := by rw [RadixNode.len, hmmask]
    have hcgo : goesTo ip mask m = true := by
      rw [goesTo_iff hnet (hl.network c m hm), hlen, hmip]
      exact ⟨le_rfl, fun _ _ => rfl⟩
    have hcreach : Relation.ReflTransGen (Below h ip (goesTo ip mask)) root c := by
      apply hl.reaches _ _ hm (.inr hcgo)
      · intro c m hm hgo
        exact ((goesTo_iff hnet (hl.network c m hm)).mp hgo).2
      · intro n m b a c hn hm hext hgo
        rw [goesTo_iff hnet (hl.network c m hm)] at hgo
        rw [goesTo_iff hnet (hl.network a n hn)]
        exact ⟨hext.len_lt.le.trans hgo.1, (hgo.2.mono hext.len_lt.le).trans hext.agree.symm⟩
    rcases hl.len_of_reaches (reaches_of_end hreach hend hcreach) hm hk with heq | hlt
    · exact heq
    · omega
  · intro c m hc hm
    rw [← Bool.not_eq_true]
    exact fun hgo => hend c ⟨k, m, hk, hc, hm, hgo⟩

/-- The mask computed for a split is that of the longest common prefix, cut at
the length of the mask to insert. -/
theorem newmask_spec {y : BitVec 32} {M : ℕ} (hnet : IsNetwork ip mask) (hM : M ≤ 32)
    (hx : prefixLen mask < M ∨ ¬ AgreeTo M ip y) :
    ∃ L < M, L ≤ prefixLen mask ∧ AgreeTo L ip y ∧
      (L < prefixLen mask → ip.getMsbD L ≠ y.getMsbD L) ∧
      ~~~smear32 (~~~mask ||| (ip ^^^ y)) = prefixMask 32 L := by
  have hbit : ∀ i < 32, (~~~mask ||| (ip ^^^ y)).getMsbD i = true ↔
      prefixLen mask ≤ i ∨ ip.getMsbD i ≠ y.getMsbD i := by
    intro i hi
    have hmask : mask.getMsbD i = decide (i < prefixLen mask) := by
      rw [hnet.mask_eq, getMsbD_prefixMask hi, prefixLen_prefixMask hnet.len_le]
    simp [hmask, hi]
  have hex : ∃ i, i < M ∧ (~~~mask ||| (ip ^^^ y)).getMsbD i = true := by
    rcases hx with hx | hx
    · exact ⟨prefixLen mask, hx, (hbit _ (by omega)).mpr (.inl le_rfl)⟩
    · simp only [AgreeTo, not_forall] at hx
      obtain ⟨i, hi, hne⟩ := hx
      exact ⟨i, hi, (hbit i (by omega)).mpr (.inr hne)⟩
  obtain ⟨hlt, hset⟩ := Nat.find_spec hex
  have hmin : ∀ i < Nat.find hex, (~~~mask ||| (ip ^^^ y)).getMsbD i = false := by
    intro i hi
    rw [← Bool.not_eq_true]
    exact fun hset' => Nat.find_min hex hi ⟨by omega, hset'⟩
  generalize Nat.find hex = L at hlt hset hmin
  have hbefore : ∀ i < L, i < prefixLen mask ∧ ip.getMsbD i = y.getMsbD i := by
    intro i hi
    have hi' : ¬ (prefixLen mask ≤ i ∨ ip.getMsbD i ≠ y.getMsbD i) := by
      rw [← hbit i (by omega), hmin i hi]
      exact Bool.false_ne_true
    exact ⟨not_le.mp fun hle => hi' (.inl hle), not_not.mp fun hne => hi' (.inr hne)⟩
  refine ⟨L, hlt, ?_, fun i hi => (hbefore i hi).2, ?_, not_smear32_eq hset hmin⟩
  · by_contra hle
    exact absurd (hbefore (prefixLen mask) (by omega)).1 (lt_irrefl _)
  · intro hL
    rcases (hbit L (by omega)).mp hset with h₁ | h₁
    · omega
    · exact h₁

/-- The pointer writes of a split. -/
theorem spliced_split (hl : RadixLinks root h) (hp : h p = some pn) (hc : pn.child b = some c)
    (hfresh : h new = none) :
    Spliced h ((RadixHeap.setChild (Function.update h new (some newn)) p b (some new)).setParent c
      new) p pn b new newn := by
  obtain ⟨m, hm, -, -⟩ := hl.child p pn b c hp hc
  have hcp := hl.child_ne hp hc
  have hnp : new ≠ p := by
    rintro rfl
    rw [hfresh] at hp
    cases hp
  have hnc : new ≠ c := by
    rintro rfl
    rw [hfresh] at hm
    cases hm
  constructor
  · simp [RadixHeap.setParent, RadixHeap.setChild, hnp, hnc]
  · simp [RadixHeap.setParent, RadixHeap.setChild, hnp.symm, hcp.symm, hp]
  · intro c' m' hc' hm'
    obtain rfl : c = c' := Option.some.inj (hc.symm.trans hc')
    simp [RadixHeap.setParent, RadixHeap.setChild, hnc.symm, hcp, hm']
  · intro x hxn hxp hxc
    have hne : x ≠ c := fun h => hxc (h ▸ hc)
    simp [RadixHeap.setParent, RadixHeap.setChild, hxn, hxp, hne]

/-- The pointer writes of a new leaf. -/
theorem spliced_leaf (hp : h p = some pn) (hc : pn.child b = none) (hfresh : h new = none) :
    Spliced h (RadixHeap.setChild (Function.update h new (some newn)) p b (some new)) p pn b new
      newn := by
  have hnp : new ≠ p := by
    rintro rfl
    rw [hfresh] at hp
    cases hp
  constructor
  · simp [RadixHeap.setChild, hnp]
  · simp [RadixHeap.setChild, hnp.symm, hp]
  · intro c' m' hc'
    rw [hc] at hc'
    cases hc'
  · intro x hxn hxp _
    simp [RadixHeap.setChild, hxn, hxp]

/-- The state between the two insertion steps: the network belongs at `node`,
or below it where `child` is free. -/
structure Placed (root : ℕ) (h h' : RadixHeap δ) (ip mask : BitVec 32) (node : ℕ)
    (k : RadixNode δ) (child : Bool) : Prop where
  links : RadixLinks root h'
  full : ∃ e, FullBut root h' e ∧
    ∀ x, e = some x → x = node ∧ (k.mask < mask → (k.child !child).isSome)
  best : Best h' ip mask node k
  holds : ∀ ip mask d, Holds h' ip mask d ↔ Holds h ip mask d
  free : k.mask < mask → ip.getMsbD k.len = child ∧ k.child child = none

/-- A new node in place: a node for the network can only be the new one. -/
theorem Spliced.best (hs : Spliced h h' p pn b new newn) (hl : RadixLinks root h)
    (hp : h p = some pn) (hbest : Best h ip mask p pn) (hlt : pn.mask < mask)
    (hagree : AgreeTo newn.len ip newn.ip) (hle : newn.len ≤ prefixLen mask) :
    Best h' ip mask new newn := by
  refine ⟨hs.at_new, hagree, hle, ?_⟩
  -- An old node for the network would be `p`, whose mask is shorter.
  have hold : ∀ x m, h x = some m → m.ip = ip → m.mask = mask → x = new := by
    intro x m hm hip hmask
    obtain rfl := hbest.exact_node x m hm hip hmask
    obtain rfl : pn = m := Option.some.inj (hp.symm.trans hm)
    rw [hmask] at hlt
    exact absurd hlt (BitVec.lt_irrefl _)
  intro x m hx hip hmask
  rcases hs.cases hl hp hx with ⟨rfl, rfl⟩ | ⟨rfl, rfl⟩ | ⟨m', -, hm', rfl⟩ | ⟨-, -, -, hm⟩
  · rfl
  · exact hold x pn hp hip hmask
  · exact hold x m' hm' hip hmask
  · exact hold x m hm hip hmask

/-- The node that a split puts in. -/
def splitNode (ip : BitVec 32) (node next L : ℕ) (m : RadixNode δ) : RadixNode δ :=
  { ip := ip &&& prefixMask 32 L
    mask := prefixMask 32 L
    parent := some node
    child := Function.update (fun _ => none) (m.ip.getMsbD L) (some next)
    data := none }

theorem split_placed {L : ℕ} (hl : RadixLinks root h) (hfull : FullBut root h none)
    (hnet : IsNetwork ip mask) (hbest : Best h ip mask a k) (hlt : k.mask < mask)
    (hc : k.child b = some c)
    (hm : h c = some m) (hbit : ip.getMsbD k.len = b)
    (hkL : k.len < L) (hLm : L < m.len) (hL : L ≤ 32) (hLmask : L ≤ prefixLen mask)
    (hLagree : AgreeTo L ip m.ip)
    (hLdiff : L < prefixLen mask → ip.getMsbD L ≠ m.ip.getMsbD L) (hfresh : h new = none) :
    Placed root h
      ((RadixHeap.setChild (Function.update h new (some (splitNode ip a c L m))) a b
        (some new)).setParent c new) ip mask new (splitNode ip a c L m) (ip.getMsbD L) := by
  have hs : Spliced h _ a k b new (splitNode ip a c L m) :=
    spliced_split hl hbest.here hc hfresh
  have hlen : (splitNode ip a c L m).len = L := prefixLen_prefixMask hL
  have hagree : AgreeTo L ip (splitNode ip a c L m).ip := and_prefixMask_agree.symm
  have hnew : IsNetwork (splitNode ip a c L m).ip (splitNode ip a c L m).mask :=
    ⟨L, hL, rfl, by simp [splitNode, BitVec.and_assoc]⟩
  have hfit : Fits h a k b (splitNode ip a c L m) := by
    refine ⟨hnew, rfl, ⟨by rw [hlen]; exact hkL, ?_, ?_⟩, ?_, ?_⟩
    · exact hbest.agree.symm.trans (hagree.mono hkL.le)
    · rw [← hagree _ hkL, hbit]
    · intro b' c' hc'
      by_cases hb' : b' = m.ip.getMsbD L
      · subst hb'
        simp only [splitNode, Function.update_self, Option.some.injEq] at hc'
        subst hc'
        refine ⟨hc, ?_⟩
        intro m' hm'
        obtain rfl : m = m' := Option.some.inj (hm.symm.trans hm')
        refine ⟨by rw [hlen]; exact hLm, ?_, by rw [hlen]⟩
        rw [hlen]
        exact hagree.symm.trans hLagree
      · simp [splitNode, Function.update_of_ne hb'] at hc'
    · intro c' hc'
      obtain rfl : c = c' := Option.some.inj (hc.symm.trans hc')
      exact ⟨m.ip.getMsbD L, by simp [splitNode]⟩
  have hne : (splitNode ip a c L m).mask < mask → ip.getMsbD L ≠ m.ip.getMsbD L := by
    intro hlt'
    have := (hnew.mask_lt_iff hnet).mp hlt'
    exact hLdiff (hlen ▸ this)
  refine ⟨hs.links hl hbest.here hfresh hfit, ⟨some new, hs.full hl hbest.here hfull (by simp), ?_⟩,
    hs.best hl hbest.here hbest hlt (by rw [hlen]; exact hagree) (by rw [hlen]; exact hLmask),
    fun _ _ d => hs.holds hl hbest.here hfresh rfl d, ?_⟩
  · rintro x hx
    refine ⟨(Option.some.inj hx).symm, fun hlt' => ?_⟩
    have hnot : m.ip.getMsbD L = !ip.getMsbD L := Bool.eq_not.mpr (hne hlt').symm
    simp [splitNode, hnot]
  · intro hlt'
    refine ⟨by rw [hlen], ?_⟩
    simp [splitNode, Function.update_of_ne (hne hlt')]

theorem splitEdge_spec (part : Partition δ) (hl : RadixLinks root h) (hfull : FullBut root h none)
    (hnet : IsNetwork ip mask) (hbest : Best h ip mask a k)
    (hnext : ∀ c m, k.child (childOf ip k.mask) = some c → h c = some m →
      goesTo ip mask m = false) :
    (splitEdge part ip mask h a (childOf ip k.mask) (k.child (childOf ip k.mask)) = some none ∧
      k.mask < mask ∧ part.alloc h = none) ∨
    ∃ h' node k' child, splitEdge part ip mask h a (childOf ip k.mask)
        (k.child (childOf ip k.mask)) = some (some (h', node, child)) ∧
      Placed root h h' ip mask node k' child := by
  have hk := hl.network a k hbest.here
  have hbit : k.mask < mask → childOf ip k.mask = ip.getMsbD k.len := by
    intro hlt
    have hlen := (hk.mask_lt_iff hnet).mp hlt
    exact hk.childOf_eq (lt_of_lt_of_le hlen hnet.len_le)
  -- Without a split the state is as it was.
  have hsame : (k.mask < mask → k.child (childOf ip k.mask) = none) →
      Placed root h h ip mask a k (childOf ip k.mask) := by
    intro hfree
    refine ⟨hl, ⟨none, hfull, by simp⟩, hbest, fun _ _ _ => Iff.rfl, ?_⟩
    exact fun hlt => ⟨(hbit hlt).symm, hfree hlt⟩
  cases hc : k.child (childOf ip k.mask) with
  | none =>
    right
    exact ⟨h, a, k, _, by simp [splitEdge, hbest.here], hsame fun _ => hc⟩
  | some c =>
    by_cases hlt : k.mask < mask
    · obtain ⟨m, hm, -, hext⟩ := hl.child a k _ c hbest.here hc
      cases halloc : part.alloc h with
      | none =>
        left
        exact ⟨by simp [splitEdge, hbest.here, hlt, hm, halloc], hlt, rfl⟩
      | some new =>
        right
        have hmnet := hl.network c m hm
        have hdiff : prefixLen mask < m.len ∨ ¬ AgreeTo m.len ip m.ip := by
          have hgo : ¬ goesTo ip mask m = true := by
            rw [hnext c m hc hm]
            exact Bool.false_ne_true
          rw [goesTo_iff hnet hmnet] at hgo
          by_contra hcon
          exact hgo ⟨not_lt.mp fun h => hcon (.inl h), not_not.mp fun h => hcon (.inr h)⟩
        obtain ⟨L, hLm, hLmask, hLagree, hLdiff, hnewmask⟩ := newmask_spec hnet hmnet.len_le hdiff
        have hL32 : L < 32 := lt_of_lt_of_le hLm hmnet.len_le
        -- The common prefix goes beyond the node above.
        have hkL : k.len < L := by
          by_contra hcon
          have hklen := (hk.mask_lt_iff hnet).mp hlt
          apply hLdiff (by unfold RadixNode.len at hcon; omega)
          rcases Nat.lt_or_ge L k.len with hlt' | hge
          · rw [hbest.agree L hlt', hext.agree L hlt']
          · obtain rfl : L = k.len := by omega
            rw [← hbit hlt, hext.bit]
        have hbits : ∀ y : BitVec 32, decide (y &&& ((smear32 (~~~mask ||| (ip ^^^ m.ip)) >>> 1) + 1)
            ≠ 0) = y.getMsbD L := by
          intro y
          rw [Bool.eq_iff_iff, ← and_nextBit_ne_zero_iff hL32, ← hnewmask, nextBit,
            BitVec.not_not, decide_eq_true_eq]
        refine ⟨_, new, splitNode ip a c L m, ip.getMsbD L, ?_,
          split_placed hl hfull hnet hbest hlt hc hm (hbit hlt).symm hkL hLm hL32.le hLmask hLagree
            hLdiff (part.fresh h new halloc)⟩
        simp only [splitEdge, hbest.here, hm, halloc, hbits, hnewmask, splitNode,
          Option.bind_eq_bind, Option.bind_some, if_pos hlt]
    · right
      refine ⟨h, a, k, _, ?_, hsame fun h => absurd h hlt⟩
      simp [splitEdge, hbest.here, hlt]

theorem addLeaf_spec (part : Partition δ) (hnet : IsNetwork ip mask)
    (hplaced : Placed root h h' ip mask a k b) :
    ∃ h'' node k', addLeaf part ip mask h' a b = some (h'', node) ∧ RadixLinks root h'' ∧
      FullBut root h'' (some node) ∧ Best h'' ip mask node k' ∧
      (∀ ip mask d, Holds h'' ip mask d ↔ Holds h ip mask d) ∧
      (k'.mask < mask → part.alloc h' = none) := by
  obtain ⟨hl, ⟨e, hfull, he⟩, hbest, hholds, hfree⟩ := hplaced
  have hk := hl.network a k hbest.here
  have hfull' : FullBut root h' (some a) := by
    intro x n hx hroot hne
    exact hfull x n hx hroot fun hex => hne (congrArg some (he x hex).1.symm)
  by_cases hlt : k.mask < mask
  · cases halloc : part.alloc h' with
    | none =>
      exact ⟨h', a, k, by simp [addLeaf, hbest.here, halloc], hl, hfull', hbest, hholds,
        fun _ => rfl⟩
    | some new =>
      obtain ⟨hbit, hnone⟩ := hfree hlt
      have hfresh := part.fresh h' new halloc
      have hlen := (hk.mask_lt_iff hnet).mp hlt
      have hs : Spliced h' _ a k b new ⟨ip, mask, some a, fun _ => none, none⟩ :=
        spliced_leaf hbest.here hnone hfresh
      have hfit : Fits h' a k b ⟨ip, mask, some a, fun _ => none, none⟩ := by
        refine ⟨hnet, rfl, ⟨hlen, hbest.agree.symm, hbit⟩, ?_, ?_⟩
        · intro b' c hc
          cases hc
        · intro c hc
          rw [hnone] at hc
          cases hc
      refine ⟨_, new, _, ?_, hs.links hl hbest.here hfresh hfit, ?_,
        hs.best hl hbest.here hbest hlt (fun _ _ => rfl) le_rfl, ?_, ?_⟩
      · simp only [addLeaf, hbest.here, halloc, Option.bind_eq_bind, Option.bind_some, if_pos hlt]
      · refine hs.full hl hbest.here hfull fun x hx => ?_
        exact ⟨(he x hx).1, (he x hx).2 hlt⟩
      · intro ip' mask' d
        rw [hs.holds hl hbest.here hfresh rfl, hholds]
      · intro hlt'
        exact absurd hlt' (BitVec.lt_irrefl _)
  · exact ⟨h', a, k, by simp [addLeaf, hbest.here, hlt], hl, hfull', hbest, hholds,
      fun h => absurd h hlt⟩

theorem setData_kept {d : Option δ} (hx : h x = some m) :
    ∃ m', (h.setData a d) x = some m' ∧ m'.ip = m.ip ∧ m'.mask = m.mask ∧
      m'.parent = m.parent ∧ m'.child = m.child ∧ m'.data = if x = a then d else m.data := by
  by_cases hxa : x = a
  · subst hxa
    exact ⟨{ m with data := d }, by simp [RadixHeap.setData, hx]⟩
  · exact ⟨m, by simp [RadixHeap.setData, hx, hxa]⟩

theorem of_setData {d : Option δ} (hx : (h.setData a d) x = some m) :
    ∃ m₀, h x = some m₀ ∧ m.ip = m₀.ip ∧ m.mask = m₀.mask ∧ m.parent = m₀.parent ∧
      m.child = m₀.child ∧ m.data = if x = a then d else m₀.data := by
  cases hx₀ : h x with
  | none =>
    by_cases hxa : x = a
    · subst hxa
      simp [RadixHeap.setData, hx₀] at hx
    · simp [RadixHeap.setData, hx₀, hxa] at hx
  | some m₀ =>
    obtain ⟨m', hm', hrest⟩ := setData_kept (a := a) (d := d) hx₀
    obtain rfl : m = m' := Option.some.inj (hx.symm.trans hm')
    exact ⟨m₀, rfl, hrest⟩

theorem RadixLinks.setData {d : Option δ} (hl : RadixLinks root h) :
    RadixLinks root (h.setData a d) := by
  constructor
  · obtain ⟨r, hr, hmask, hip, hpar⟩ := hl.root_node
    obtain ⟨r', hr', h₁, h₂, h₃, -, -⟩ := setData_kept (a := a) (d := d) hr
    exact ⟨r', hr', h₂.trans hmask, h₁.trans hip, h₃.trans hpar⟩
  · intro x m hx
    obtain ⟨m₀, hm₀, h₁, h₂, -⟩ := of_setData hx
    rw [h₁, h₂]
    exact hl.network x m₀ hm₀
  · intro x m b c hx hc
    obtain ⟨m₀, hm₀, h₁, h₂, -, h₃, -⟩ := of_setData hx
    obtain ⟨k, hk, hpar, hext⟩ := hl.child x m₀ b c hm₀ (h₃ ▸ hc)
    obtain ⟨k', hk', h₄, h₅, h₆, -, -⟩ := setData_kept (a := a) (d := d) hk
    exact ⟨k', hk', h₆.trans hpar, hext.congr h₁ h₂ h₄ h₅⟩
  · intro x m hx hroot
    obtain ⟨m₀, hm₀, -, -, h₁, -, -⟩ := of_setData hx
    obtain ⟨q, qn, b, hq, hqn, hqx⟩ := hl.parent x m₀ hm₀ hroot
    obtain ⟨qn', hqn', -, -, -, h₂, -⟩ := setData_kept (a := a) (d := d) hqn
    exact ⟨q, qn', b, h₁.trans hq, hqn', by rw [h₂]; exact hqx⟩

/-- The networks after `insert()` was called at the node of one of them. -/
theorem holds_setData {d' : Option δ} (hl : RadixLinks root h) (hn : h a = some n) (d : δ) :
    Holds (h.setData a d') ip mask d ↔
      if n.ip = ip ∧ n.mask = mask then d' = some d else Holds h ip mask d := by
  obtain ⟨n', hn', h₁, h₂, -, -, h₃⟩ := setData_kept (a := a) (d := d') hn
  rw [if_pos rfl] at h₃
  split_ifs with hkey
  · constructor
    · rintro ⟨x, m, hx, hip, hmask, hd⟩
      obtain ⟨m₀, hm₀, h₄, h₅, -, -, h₆⟩ := of_setData hx
      obtain rfl : a = x := hl.node_unique hn hm₀ (by rw [hkey.1, ← h₄, hip])
        (by rw [hkey.2, ← h₅, hmask])
      rw [if_pos rfl] at h₆
      exact h₆.symm.trans hd
    · intro hd
      exact ⟨a, n', hn', h₁.trans hkey.1, h₂.trans hkey.2, h₃.trans hd⟩
  · constructor
    · rintro ⟨x, m, hx, hip, hmask, hd⟩
      obtain ⟨m₀, hm₀, h₄, h₅, -, -, h₆⟩ := of_setData hx
      rw [if_neg] at h₆
      · exact ⟨x, m₀, hm₀, h₄.symm.trans hip, h₅.symm.trans hmask, h₆.symm.trans hd⟩
      · rintro rfl
        obtain rfl : n = m₀ := Option.some.inj (hn.symm.trans hm₀)
        exact hkey ⟨h₄.symm.trans hip, h₅.symm.trans hmask⟩
    · rintro ⟨x, m, hx, hip, hmask, hd⟩
      obtain ⟨m', hm', h₄, h₅, -, -, h₆⟩ := setData_kept (a := a) (d := d') hx
      rw [if_neg] at h₆
      · exact ⟨x, m', hm', h₄.trans hip, h₅.trans hmask, h₆.trans hd⟩
      · rintro rfl
        obtain rfl : n = m := Option.some.inj (hn.symm.trans hx)
        exact hkey ⟨hip, hmask⟩

/-- The data by network. -/
abbrev NetworkMap (δ : Type) := BitVec 32 × BitVec 32 → Option δ

/-- The networks with data in the tree are those of the map. -/
def Represents (h : RadixHeap δ) (nets : NetworkMap δ) : Prop :=
  ∀ ip mask d, nets (ip, mask) = some d ↔ Holds h ip mask d

/-- The map after an insertion; `called` says whether `insert()` was called. -/
def NetworkMap.insert (nets : NetworkMap δ) (ip mask : BitVec 32) (f : Option δ → Option δ)
    (called : Bool) : NetworkMap δ :=
  if called then Function.update nets (ip, mask) (f (nets (ip, mask))) else nets

variable {nets : NetworkMap δ} {f : Option δ → Option δ}

theorem Best.not_holds (hbest : Best h ip mask a k) (hlt : k.mask < mask) (d : δ) :
    ¬ Holds h ip mask d := by
  rintro ⟨x, m, hm, hip, hmask, -⟩
  obtain rfl := hbest.exact_node x m hm hip hmask
  obtain rfl : k = m := Option.some.inj (hbest.here.symm.trans hm)
  rw [hmask] at hlt
  exact BitVec.lt_irrefl _ hlt

theorem Represents.data_eq (hrep : Represents h nets) (hl : RadixLinks root h)
    (hn : h a = some n) : nets (n.ip, n.mask) = n.data := by
  apply Option.ext
  intro d
  rw [hrep]
  constructor
  · rintro ⟨x, m, hm, hip, hmask, hd⟩
    obtain rfl := hl.node_unique hn hm hip.symm hmask.symm
    obtain rfl : n = m := Option.some.inj (hn.symm.trans hm)
    exact hd
  · exact fun hd => ⟨a, n, hn, rfl, rfl, hd⟩

theorem finishInsert_spec (hl : RadixLinks root h) (hfull : FullBut root h (some a))
    (hnet : IsNetwork ip mask) (hbest : Best h ip mask a k) (hrep : Represents h nets) :
    ∃ h' called, finishInsert mask f h a = some (h', called) ∧ RadixLinks root h' ∧
      FullBut root h' none ∧ Represents h' (nets.insert ip mask f called) ∧
      (called = false → k.mask < mask) := by
  have hk := hl.network a k hbest.here
  have hlen : k.len < 33 := Nat.lt_succ_of_le hk.len_le
  by_cases hlt : k.mask < mask
  · have hne : mask ≠ k.mask := by
      rintro rfl
      exact BitVec.lt_irrefl _ hlt
    obtain ⟨h', hprune, hl', hfull', hholds⟩ := pruneNodes_spec hl hfull hbest.here hlen
    refine ⟨h', false, ?_, hl', hfull', ?_, fun _ => hlt⟩
    · simp only [finishInsert, hbest.here, hprune, Option.bind_eq_bind, Option.bind_some,
        if_neg hne]
    · intro ip' mask' d
      rw [hholds]
      exact hrep ip' mask' d
  · obtain ⟨hip, hmask⟩ := hbest.ip_eq hnet hk hlt
    obtain ⟨k', hk', -, h₂, -, -, -⟩ := setData_kept (a := a) (d := f k.data) hbest.here
    have hfull₁ : FullBut root (h.setData a (f k.data)) (some a) := by
      intro x m hx hroot hne hdata b'
      obtain ⟨m₀, hm₀, -, -, -, h₃, h₄⟩ := of_setData hx
      rw [if_neg fun hxa => hne (congrArg some hxa.symm)] at h₄
      rw [h₃]
      exact hfull x m₀ hm₀ hroot hne (h₄ ▸ hdata) b'
    have hlen' : k'.len < 33 := by
      rw [RadixNode.len, h₂]
      exact hlen
    obtain ⟨h', hprune, hl', hfull', hholds⟩ := pruneNodes_spec hl.setData hfull₁ hk' hlen'
    refine ⟨h', true, ?_, hl', hfull', ?_, by simp⟩
    · simp only [finishInsert, hbest.here, hprune, Option.bind_eq_bind, Option.bind_some,
        if_pos hmask.symm]
    · intro ip' mask' d
      rw [hholds, holds_setData hl hbest.here, hip, hmask]
      have hdata := hrep.data_eq hl hbest.here
      rw [hip, hmask] at hdata
      rw [NetworkMap.insert, if_pos rfl, hdata]
      split_ifs with hkey
      · rw [← hkey.1, ← hkey.2, Function.update_self]
      · rw [Function.update_of_ne, hrep]
        intro heq
        exact hkey ⟨(congrArg Prod.fst heq).symm, (congrArg Prod.snd heq).symm⟩

/-- `insert()` is called unless a node would have to be made and is not. -/
theorem ipradixInsert_spec (part : Option (Partition δ)) (hl : RadixLinks root h)
    (hfull : FullBut root h none) (hnet : IsNetwork ip mask) (hrep : Represents h nets) :
    ∃ h' called, ipradixInsert root part ip mask f h = some (h', called) ∧ RadixLinks root h' ∧
      FullBut root h' none ∧ Represents h' (nets.insert ip mask f called) ∧
      (called = false → nets (ip, mask) = none ∧
        (part = none ∨ ∃ pt h₁, part = some pt ∧ pt.alloc h₁ = none)) := by
  obtain ⟨node, k, hsearch, hbest, hnext⟩ := search_best hl hnet
  have hnone : (∀ d, ¬ Holds h ip mask d) → nets (ip, mask) = none := by
    intro hno
    rw [Option.eq_none_iff_forall_ne_some]
    exact fun d hd => hno d ((hrep ip mask d).mp hd)
  cases part with
  | none =>
    obtain ⟨h', called, hfin, hl', hfull', hrep', hcalled⟩ :=
      finishInsert_spec hl (hfull.weaken _) hnet hbest hrep
    refine ⟨h', called, ?_, hl', hfull', hrep', fun hc => ⟨?_, .inl rfl⟩⟩
    · simp only [ipradixInsert, hsearch, Option.bind_eq_bind, Option.bind_some, hfin]
    · exact hnone fun d => hbest.not_holds (hcalled hc) d
  | some pt =>
    rcases splitEdge_spec pt hl hfull hnet hbest hnext with
      ⟨hsplit, hlt, halloc⟩ | ⟨h₁, node₁, k₁, child₁, hsplit, hplaced⟩
    · refine ⟨h, false, ?_, hl, hfull, hrep, fun _ => ⟨?_, .inr ⟨pt, h, rfl, halloc⟩⟩⟩
      · simp only [ipradixInsert, hsearch, hsplit, Option.bind_eq_bind, Option.bind_some]
      · exact hnone fun d => hbest.not_holds hlt d
    · obtain ⟨h₂, node₂, k₂, hleaf, hl₂, hfull₂, hbest₂, hholds, halloc⟩ :=
        addLeaf_spec pt hnet hplaced
      have hrep₂ : Represents h₂ nets := fun ip mask d => (hrep ip mask d).trans (hholds ip mask d).symm
      obtain ⟨h', called, hfin, hl', hfull', hrep', hcalled⟩ :=
        finishInsert_spec hl₂ hfull₂ hnet hbest₂ hrep₂
      refine ⟨h', called, ?_, hl', hfull', hrep', fun hc => ⟨?_, .inr ⟨pt, h₁, rfl, ?_⟩⟩⟩
      · simp only [ipradixInsert, hsearch, hsplit, hleaf, hfin, Option.bind_eq_bind,
          Option.bind_some]
      · exact hnone fun d hd => hbest₂.not_holds (hcalled hc) d ((hholds _ _ _).mpr hd)
      · exact halloc (hcalled hc)

end edits

/-- Insertions into a tree that is empty at first, with the map of networks they
make. Any allocation may fail. -/
inductive RadixRun {δ : Type} (root : ℕ) : RadixHeap δ → NetworkMap δ → Prop
  | init : RadixRun root (ipradixInit root) fun _ => none
  | insert {h h' : RadixHeap δ} {nets : NetworkMap δ} {called : Bool} {ip mask : BitVec 32}
      {f : Option δ → Option δ} (part : Option (Partition δ)) :
      RadixRun root h nets → IsNetwork ip mask →
      ipradixInsert root part ip mask f h = some (h', called) →
      RadixRun root h' (nets.insert ip mask f called)

section runs

variable {δ σ : Type} {root : ℕ} {h : RadixHeap δ} {nets : NetworkMap δ}

theorem init_links : RadixLinks root (ipradixInit root : RadixHeap δ) := by
  have hcases : ∀ a n, (ipradixInit root : RadixHeap δ) a = some n →
      a = root ∧ n = ⟨0, 0, none, fun _ => none, none⟩ := by
    intro a n hn
    by_cases ha : a = root
    · subst ha
      rw [ipradixInit, Function.update_self] at hn
      exact ⟨rfl, (Option.some.inj hn).symm⟩
    · rw [ipradixInit, Function.update_of_ne ha] at hn
      cases hn
  constructor
  · exact ⟨_, Function.update_self _ _ _, rfl, rfl, rfl⟩
  · intro a n hn
    obtain ⟨-, rfl⟩ := hcases a n hn
    exact ⟨0, by decide, prefixMask_zero.symm, by simp⟩
  · intro a n b c hn hc
    obtain ⟨-, rfl⟩ := hcases a n hn
    cases hc
  · intro a n hn hroot
    exact absurd (hcases a n hn).1 hroot

theorem RadixRun.invariant (hrun : RadixRun root h nets) :
    RadixLinks root h ∧ FullBut root h none ∧ Represents h nets := by
  induction hrun with
  | init =>
    refine ⟨init_links, ?_, ?_⟩
    · intro a n hn hroot
      simp [ipradixInit, Function.update_of_ne hroot] at hn
    · intro ip mask d
      constructor
      · intro hd
        cases hd
      · rintro ⟨a, n, hn, -, -, hd⟩
        by_cases ha : a = root
        · subst ha
          rw [ipradixInit, Function.update_self, Option.some.injEq] at hn
          rw [← hn] at hd
          cases hd
        · simp [ipradixInit, Function.update_of_ne ha] at hn
  | insert part _ hnet hins ih =>
    obtain ⟨hl, hfull, hrep⟩ := ih
    obtain ⟨h₁, called, hins', hl', hfull', hrep', -⟩ := ipradixInsert_spec part hl hfull hnet hrep
    obtain ⟨rfl, rfl⟩ := Prod.mk.inj (Option.some.inj (hins'.symm.trans hins))
    exact ⟨hl', hfull', hrep'⟩

/-- A partition with a single node. -/
def oneNode (δ : Type) : Partition δ where
  alloc h := if (h 1).isNone then some 1 else none
  fresh h a ha := by
    split_ifs at ha with hnone
    obtain rfl := Option.some.inj ha
    exact Option.isNone_iff_eq_none.mp hnone

end runs

end Rtcs
end Mqx
