import CompactLog.TreeMath

/-! Subtrees of the RFC 6962 tree and where the index algebra puts them: `locate` finds the
parent and sibling that the split recursion builds. -/

namespace CompactLog

/-- `Subtree a0 m0 a m`: the leaves `[a, a + m)` form a subtree of the RFC 6962 tree over
`[a0, a0 + m0)`, reached by descending from its root. -/
inductive Subtree : Nat → Nat → Nat → Nat → Prop
  | refl (a m : Nat) : Subtree a m a m
  | left {a0 m0 a m : Nat} : 2 ≤ m0 → Subtree a0 (split m0) a m → Subtree a0 m0 a m
  | right {a0 m0 a m : Nat} :
      2 ≤ m0 → Subtree (a0 + split m0) (m0 - split m0) a m → Subtree a0 m0 a m

theorem subtreeRoot_of_le_one {a m : Nat} (h : m ≤ 1) : subtreeRoot a m = 2 * a := by
  simp [subtreeRoot, h]

theorem subtreeRoot_of_two_le {a m : Nat} (h : 2 ≤ m) :
    subtreeRoot a m = 2 * (a + split m) - 1 := by
  simp [subtreeRoot, show ¬ m ≤ 1 by omega]

theorem subtreeRoot_bounds (a : Nat) {m : Nat} (hm : 1 ≤ m) :
    2 * a ≤ subtreeRoot a m ∧ subtreeRoot a m + 2 ≤ 2 * (a + m) := by
  by_cases h : m ≤ 1
  · rw [subtreeRoot_of_le_one h]; omega
  · have := split_lt (by omega : 2 ≤ m)
    have := one_le_split (by omega : 2 ≤ m)
    rw [subtreeRoot_of_two_le (by omega)]; omega

theorem Subtree.bounds {a0 m0 a m : Nat} (h : Subtree a0 m0 a m) (hm : 1 ≤ m0) :
    a0 ≤ a ∧ a + m ≤ a0 + m0 ∧ 1 ≤ m := by
  induction h with
  | refl => omega
  | left h2 _ ih =>
    have := split_lt h2; have := ih (one_le_split h2); omega
  | right h2 _ ih =>
    have := split_lt h2; have := ih (by omega); omega

theorem Subtree.trans {a0 m0 a1 m1 a m : Nat} (h : Subtree a0 m0 a1 m1)
    (h' : Subtree a1 m1 a m) : Subtree a0 m0 a m := by
  induction h with
  | refl => exact h'
  | left h2 _ ih => exact .left h2 (ih h')
  | right h2 _ ih => exact .right h2 (ih h')

theorem Subtree.left_child {a0 m0 a m : Nat} (h : Subtree a0 m0 a m) (hm : 2 ≤ m) :
    Subtree a0 m0 a (split m) :=
  h.trans (.left hm (.refl _ _))

theorem Subtree.right_child {a0 m0 a m : Nat} (h : Subtree a0 m0 a m) (hm : 2 ≤ m) :
    Subtree a0 m0 (a + split m) (m - split m) :=
  h.trans (.right hm (.refl _ _))

theorem Subtree.side {a0 m0 a m : Nat} (h : Subtree a0 m0 a m) (hlt : m < m0) :
    (a + m ≤ a0 + split m0 ∧ subtreeRoot a m < subtreeRoot a0 m0) ∨
      (a0 + split m0 ≤ a ∧ subtreeRoot a0 m0 < subtreeRoot a m) := by
  cases h with
  | refl => omega
  | left h2 h' =>
    have hb := h'.bounds (one_le_split h2)
    have hr := subtreeRoot_bounds a hb.2.2
    rw [subtreeRoot_of_two_le h2]
    left; omega
  | right h2 h' =>
    have := split_lt h2
    have := one_le_split h2
    have hb := h'.bounds (by omega)
    have hr := subtreeRoot_bounds a hb.2.2
    rw [subtreeRoot_of_two_le h2]
    right; omega

theorem Subtree.proper_root {a0 m0 a m : Nat} (h : Subtree a0 m0 a m) (hlt : m < m0) :
    subtreeRoot a m ≠ subtreeRoot a0 m0 ∧ 2 * a0 ≤ subtreeRoot a m ∧
      subtreeRoot a m + 2 ≤ 2 * (a0 + m0) := by
  have hb := h.bounds (by omega)
  have hr := subtreeRoot_bounds a hb.2.2
  rcases h.side hlt with ⟨-, h⟩ | ⟨-, h⟩ <;> omega

theorem Subtree.exists_parent {a0 m0 a m : Nat} (h : Subtree a0 m0 a m) (hlt : m < m0) :
    ∃ a' m', Subtree a0 m0 a' m' ∧ 2 ≤ m' ∧
      ((a = a' ∧ m = split m') ∨ (a = a' + split m' ∧ m = m' - split m')) := by
  induction h with
  | refl => omega
  | @left a0 m0 a m h2 h' ih =>
    by_cases he : m = split m0
    · have hb := h'.bounds (one_le_split h2)
      exact ⟨a0, m0, .refl _ _, h2, .inl ⟨by omega, he⟩⟩
    · have hb := h'.bounds (one_le_split h2)
      obtain ⟨a', m', hs, hm', hc⟩ := ih (by omega)
      exact ⟨a', m', .left h2 hs, hm', hc⟩
  | @right a0 m0 a m h2 h' ih =>
    have := split_lt h2
    by_cases he : m = m0 - split m0
    · have hb := h'.bounds (by omega)
      exact ⟨a0, m0, .refl _ _, h2, .inr ⟨by omega, he⟩⟩
    · have hb := h'.bounds (by omega)
      obtain ⟨a', m', hs, hm', hc⟩ := ih (by omega)
      exact ⟨a', m', .right h2 hs, hm', hc⟩

def childInfo (a m c : Nat) : Option (Nat × Nat × Bool) :=
  if c = a then some (subtreeRoot a m, subtreeRoot (a + split m) (m - split m), true)
  else some (subtreeRoot a m, subtreeRoot a (split m), false)

/-- `IsChild a m c d`: `[c, c + d)` is the left or the right child of `[a, a + m)`. -/
def IsChild (a m c d : Nat) : Prop :=
  2 ≤ m ∧ ((c = a ∧ d = split m) ∨ (c = a + split m ∧ d = m - split m))

theorem IsChild.subtree {a m c d : Nat} (h : IsChild a m c d) : Subtree a m c d := by
  obtain ⟨hm, ⟨rfl, rfl⟩ | ⟨rfl, rfl⟩⟩ := h
  exacts [.left hm (.refl _ _), .right hm (.refl _ _)]

theorem IsChild.lt {a m c d : Nat} (h : IsChild a m c d) : d < m := by
  obtain ⟨hm, ⟨-, rfl⟩ | ⟨-, rfl⟩⟩ := h
  · exact split_lt hm
  · have := one_le_split hm; omega

theorem locate_top_child {a m c d f : Nat} (h : IsChild a m c d) :
    locate (subtreeRoot c d) (f + 1) a m = childInfo a m c := by
  obtain ⟨hm, hc⟩ := h
  have hk := split_lt hm
  have hk1 := one_le_split hm
  have hl := subtreeRoot_bounds a hk1
  have hr := subtreeRoot_bounds (a + split m) (by omega : 1 ≤ m - split m)
  rcases hc with ⟨rfl, rfl⟩ | ⟨rfl, rfl⟩
  · simp [locate, childInfo, show ¬ m ≤ 1 by omega]
  · simp [locate, childInfo, show ¬ m ≤ 1 by omega, show split m ≠ 0 by omega,
      show subtreeRoot (a + split m) (m - split m) ≠ subtreeRoot a (split m) by omega]

theorem locate_child {a0 m0 a m c d fuel : Nat} (h : Subtree a0 m0 a m) (hc : IsChild a m c d)
    (hf : m0 ≤ fuel) : locate (subtreeRoot c d) fuel a0 m0 = childInfo a m c := by
  induction h generalizing fuel with
  | refl =>
    obtain ⟨f, rfl⟩ : ∃ f, fuel = f + 1 := ⟨fuel - 1, by have := hc.1; omega⟩
    exact locate_top_child hc
  | @left a0 m0 a1 m1 h2 h' ih =>
    obtain ⟨f, rfl⟩ : ∃ f, fuel = f + 1 := ⟨fuel - 1, by omega⟩
    have hk := split_lt h2
    have hb := h'.bounds (one_le_split h2)
    have hp := (h'.trans hc.subtree).proper_root (by have := hc.lt; omega)
    have hrr := subtreeRoot_bounds (a0 + split m0) (by omega : 1 ≤ m0 - split m0)
    rw [← @ih f hc (by omega)]
    simp only [locate, show ¬ m0 ≤ 1 by omega, if_false, hp.1,
      show subtreeRoot c d ≠ subtreeRoot (a0 + split m0) (m0 - split m0) by omega,
      show subtreeRoot c d < subtreeRoot a0 m0 by rw [subtreeRoot_of_two_le h2]; omega, if_true]
  | @right a0 m0 a1 m1 h2 h' ih =>
    obtain ⟨f, rfl⟩ : ∃ f, fuel = f + 1 := ⟨fuel - 1, by omega⟩
    have hk := split_lt h2
    have hb := h'.bounds (by omega)
    have hp := (h'.trans hc.subtree).proper_root (by have := hc.lt; omega)
    have hll := subtreeRoot_bounds a0 (one_le_split h2)
    rw [← @ih f hc (by omega)]
    simp only [locate, show ¬ m0 ≤ 1 by omega, if_false, hp.1,
      show subtreeRoot c d ≠ subtreeRoot a0 (split m0) by omega,
      show ¬ subtreeRoot c d < subtreeRoot a0 m0 by rw [subtreeRoot_of_two_le h2]; omega]

theorem Subtree.induct_down {P : Nat → Nat → Prop} {a0 m0 a m : Nat} (h : Subtree a0 m0 a m)
    (h0 : P a0 m0) (step : ∀ a m, 2 ≤ m → P a m → P a (split m) ∧ P (a + split m) (m - split m)) :
    P a m := by
  induction h with
  | refl => exact h0
  | left h2 _ ih => exact ih (step _ _ h2 h0).1
  | right h2 _ ih => exact ih (step _ _ h2 h0).2

section Tree

variable {n a m c d : Nat}

theorem parent_child (h : Subtree 0 n a m) (hc : IsChild a m c d) :
    parent (subtreeRoot c d) n = subtreeRoot a m := by
  rw [parent, locate_child h hc le_rfl, childInfo]
  split <;> rfl

theorem sibling_child (h : Subtree 0 n a m) (hc : IsChild a m c d) :
    sibling (subtreeRoot c d) n =
      if c = a then subtreeRoot (a + split m) (m - split m) else subtreeRoot a (split m) := by
  rw [sibling, locate_child h hc le_rfl, childInfo]
  split <;> rfl

theorem isLeft_child (h : Subtree 0 n a m) (hc : IsChild a m c d) :
    isLeft (subtreeRoot c d) n = decide (c = a) := by
  rw [isLeft, locate_child h hc le_rfl, childInfo]
  split <;> simp_all

end Tree

end CompactLog
