import Mqx.Library.Linked

/-!
# Intervals tiled by sized blocks

A region of addresses is cut into blocks when each block ends where the next one
starts. The size map alone determines the blocks, so a tiling is a list threaded
by `b ↦ b + size b`. Splitting a block and merging two neighbours are the two
edits an allocator makes.
-/

namespace PointerList

/-- The blocks of the list cut the addresses from `a` to `e` without gap or overlap. -/
def Tiles (size : ℕ → ℕ) (a : ℕ) (l : List ℕ) (e : ℕ) : Prop :=
  Linked (fun b => b + size b) a l e

namespace Tiles

variable {size size' : ℕ → ℕ} {a e : ℕ} {l r : List ℕ}

theorem cons {b : ℕ} : Tiles size a (b :: r) e ↔ a = b ∧ Tiles size (b + size b) r e := Iff.rfl

theorem le (h : Tiles size a l e) : a ≤ e := by
  induction l generalizing a with
  | nil => exact le_of_eq h
  | cons b l ih =>
    obtain ⟨rfl, h⟩ := cons.mp h
    exact (Nat.le_add_right _ _).trans (ih h)

theorem bounds (h : Tiles size a l e) {b : ℕ} (hb : b ∈ l) : a ≤ b ∧ b + size b ≤ e := by
  induction l generalizing a with
  | nil => simp at hb
  | cons c l ih =>
    obtain ⟨rfl, h⟩ := cons.mp h
    rcases List.mem_cons.mp hb with rfl | hb
    · exact ⟨le_rfl, le h⟩
    · have := ih h hb
      omega

/-- Blocks of a minimal size bound their number. -/
theorem length_le (h : Tiles size a l e) {k : ℕ} (hk : ∀ b ∈ l, k ≤ size b) :
    a + k * l.length ≤ e := by
  induction l generalizing a with
  | nil => exact le_of_eq h
  | cons b l ih =>
    obtain ⟨rfl, h⟩ := cons.mp h
    have h1 := ih h fun c hc => hk c (by simp [hc])
    have h2 := hk a (by simp)
    rw [List.length_cons, Nat.mul_succ]
    omega

/-- The part of a tiling that follows a block starts at its end. -/
theorem append_cons {b : ℕ} : Tiles size a (l ++ b :: r) e ↔
    Tiles size a l b ∧ Tiles size (b + size b) r e :=
  linked_append_cons

theorem congr (h : Tiles size a l e) (hs : ∀ b ∈ l, size' b = size b) : Tiles size' a l e :=
  Linked.congr h fun b hb => by simp [hs b hb]

theorem sorted (h : Tiles size a l e) (hpos : ∀ b ∈ l, 0 < size b) : l.Pairwise (· < ·) := by
  induction l generalizing a with
  | nil => exact List.Pairwise.nil
  | cons b l ih =>
    obtain ⟨rfl, h⟩ := cons.mp h
    refine List.pairwise_cons.mpr ⟨fun c hc => ?_, ih h fun c hc => hpos c (by simp [hc])⟩
    have := (bounds h hc).1
    have := hpos a (by simp)
    omega

theorem nodup (h : Tiles size a l e) (hpos : ∀ b ∈ l, 0 < size b) : l.Nodup :=
  (h.sorted hpos).imp fun hlt => Nat.ne_of_lt hlt

/-- Of two blocks the lower one ends before the higher one starts. -/
theorem disjoint (h : Tiles size a l e) {b c : ℕ} (hb : b ∈ l) (hc : c ∈ l) (hlt : b < c) :
    b + size b ≤ c := by
  induction l generalizing a with
  | nil => simp at hb
  | cons d l ih =>
    obtain ⟨rfl, h⟩ := cons.mp h
    rcases List.mem_cons.mp hc with rfl | hc'
    · rcases List.mem_cons.mp hb with rfl | hb
      · omega
      · have := (bounds h hb).1
        omega
    · rcases List.mem_cons.mp hb with rfl | hb
      · exact (bounds h hc').1
      · exact ih h hb hc'

/-- No block starts strictly inside another one. -/
theorem notMem_of_interior (h : Tiles size a l e) {b n : ℕ} (hb : b ∈ l) (h1 : b < n)
    (h2 : n < b + size b) : n ∉ l := by
  intro hn
  have := h.disjoint hb hn h1
  omega

theorem split {b n k : ℕ} (h : Tiles size a (l ++ b :: r) e) (hk : n + k = b + size b)
    (hl : ∀ c ∈ l, size' c = size c) (hr : ∀ c ∈ r, size' c = size c)
    (hb : b + size' b = n) (hn : size' n = k) : Tiles size' a (l ++ b :: n :: r) e := by
  rw [append_cons] at h ⊢
  refine ⟨h.1.congr hl, hb, ?_⟩
  simp only [hn, hk]
  exact h.2.congr hr

theorem merge {p b : ℕ} (h : Tiles size a (l ++ p :: b :: r) e)
    (hl : ∀ c ∈ l, size' c = size c) (hr : ∀ c ∈ r, size' c = size c)
    (hp : size' p = size p + size b) : Tiles size' a (l ++ p :: r) e := by
  rw [append_cons] at h ⊢
  obtain ⟨h1, h⟩ := h
  obtain ⟨hb, h2⟩ := cons.mp h
  refine ⟨h1.congr hl, ?_⟩
  have he : p + size' p = b + size b := by omega
  rw [he]
  exact Tiles.congr h2 hr

end Tiles
end PointerList
