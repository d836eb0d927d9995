import Mathlib.Data.Nat.Defs
import Mathlib.Algebra.Group.Nat.Basic

/-! The index algebra of the in-order Merkle tree. Leaf `i` is node `2 * i`, and the tree over
`n` leaves splits at the largest power of two below `n`, as in RFC 6962. -/

namespace CompactLog

def splitGo (n : Nat) : Nat → Nat → Nat
  | 0, p => p
  | fuel + 1, p => if 2 * p < n then splitGo n fuel (2 * p) else p

/-- Modelled from the spec: RFC 6962's split point `k` of `n ≥ 2` leaves, the largest power of
two below `n` (the tree math of ct-merkle is not part of the source). -/
def split (n : Nat) : Nat := splitGo n n 1

/-- Modelled from the spec: the in-order index of the root of the subtree over the leaves
`[a, a + m)`; its left subtree holds indices below it and its right subtree indices above. -/
def subtreeRoot (a m : Nat) : Nat := if m ≤ 1 then 2 * a else 2 * (a + split m) - 1

/-- Modelled from the spec: `root_idx(n)`, the index whose subtree covers `[0, n)`. -/
def rootIdx (n : Nat) : Nat := subtreeRoot 0 n

/-- Where node `x` hangs in the subtree over `[a, a + m)`: its parent, its sibling, and whether it
is the left child. Descends from the subtree's root, so `fuel` must exceed the depth. -/
def locate (x : Nat) : Nat → Nat → Nat → Option (Nat × Nat × Bool)
  | 0, _, _ => none
  | fuel + 1, a, m =>
    if m ≤ 1 then none
    else if x = subtreeRoot a (split m) then
      some (subtreeRoot a m, subtreeRoot (a + split m) (m - split m), true)
    else if x = subtreeRoot (a + split m) (m - split m) then
      some (subtreeRoot a m, subtreeRoot a (split m), false)
    else if x < subtreeRoot a m then locate x fuel a (split m)
    else locate x fuel (a + split m) (m - split m)

/-- Modelled from the spec: `x.parent(n)`, the parent of `x` in the tree of size `n`
(ct-merkle asserts that `x` is not the root; the model then returns `x`). -/
def parent (x n : Nat) : Nat := ((locate x n 0 n).map (·.1)).getD x

/-- Modelled from the spec: `x.sibling(n)`, the other child of `x`'s parent in the tree of
size `n`. -/
def sibling (x n : Nat) : Nat := ((locate x n 0 n).map (·.2.1)).getD x

/-- Modelled from the spec: `x.is_left(n)`, whether `x` is a left child in the tree of size `n`. -/
def isLeft (x n : Nat) : Bool := ((locate x n 0 n).map (·.2.2)).getD false

/-- The values `cur` takes in the loop `while cur != root_idx(n) { ...; cur = cur.parent(n) }`
started at `x`. The loop of the source has no bound; `fuel` caps it at `n` passes, more than the
height of any tree of `n` leaves. -/
def climb (n : Nat) : Nat → Nat → List Nat
  | 0, _ => []
  | fuel + 1, x => if x = rootIdx n then [] else x :: climb n fuel (parent x n)

/-- Modelled from the spec: `indices_for_inclusion_proof(n, i)`, the siblings met on the way
from leaf `i` to the root, bottom to top. -/
def indicesForInclusionProof (n i : Nat) : List Nat :=
  (climb n n (2 * i)).map (sibling · n)

/-- The nodes of RFC 6962's `SUBPROOF(m, D[a : a + n], b)`, in proof order. -/
def subproofIdx : Nat → Nat → Nat → Nat → Bool → List Nat
  | 0, _, _, _, _ => []
  | fuel + 1, m, a, n, b =>
    if m = n then (if b then [] else [subtreeRoot a n])
    else if m ≤ split n then
      subproofIdx fuel m a (split n) b ++ [subtreeRoot (a + split n) (n - split n)]
    else subproofIdx fuel (m - split n) (a + split n) (n - split n) false ++ [subtreeRoot a (split n)]

/-- Modelled from the spec: `indices_for_consistency_proof(m, k)`, the nodes of RFC 6962's
`PROOF(m, D[0 : m + k])`. -/
def indicesForConsistencyProof (m k : Nat) : List Nat :=
  subproofIdx (m + k) m 0 (m + k) true

def leafRangeAux : Nat → Nat → Nat × Nat
  | 0, x => (x / 2, x / 2 + 1)
  | fuel + 1, x =>
    if x % 2 = 0 then (x / 2, x / 2 + 1)
    else (2 * (leafRangeAux fuel (x / 2)).1, 2 * (leafRangeAux fuel (x / 2)).2)

/-- Modelled from the spec: the leaves `[start, stop)` below node `x` of the idealised infinite
tree. An even index is a leaf; `2 * y + 1` sits one level above `y` and covers twice its leaves. -/
def leafRange (x : Nat) : Nat × Nat := leafRangeAux x x

def levelAux : Nat → Nat → Nat
  | 0, _ => 0
  | fuel + 1, x => if x % 2 = 0 then 0 else levelAux fuel (x / 2) + 1

/-- ct-merkle's `x.level()`, the height of node `x` above the leaves: the number of trailing one
bits of its in-order index (the tree math of ct-merkle is not part of the source). -/
def level (x : Nat) : Nat := levelAux x x

/-- The leaf range of `x` cut at the tree size `n`. -/
def truncRange (x n : Nat) : Nat × Nat := ((leafRange x).1, min (leafRange x).2 n)

theorem splitGo_spec (n : Nat) :
    ∀ fuel p, (∃ k, p = 2 ^ k) → p < n → n ≤ p * 2 ^ (fuel + 1) →
      (∃ k, splitGo n fuel p = 2 ^ k) ∧ splitGo n fuel p < n ∧ n ≤ 2 * splitGo n fuel p := by
  intro fuel
  induction fuel with
  | zero => intro p hp hlt hle; exact ⟨hp, hlt, by simpa [Nat.mul_comm] using hle⟩
  | succ fuel ih =>
    intro p ⟨k, hk⟩ hlt hle
    simp only [splitGo]
    split
    · exact ih (2 * p) ⟨k + 1, by rw [hk, Nat.pow_succ, Nat.mul_comm]⟩ ‹_›
        (by rw [Nat.pow_succ] at hle; rw [Nat.mul_assoc, Nat.mul_comm 2]; simpa [Nat.mul_assoc] using hle)
    · exact ⟨⟨k, hk⟩, hlt, by omega⟩

theorem split_spec {n : Nat} (h : 2 ≤ n) :
    (∃ k, split n = 2 ^ k) ∧ split n < n ∧ n ≤ 2 * split n :=
  splitGo_spec n n 1 ⟨0, rfl⟩ (by omega)
    (by rw [Nat.one_mul]; exact Nat.le_trans (Nat.le_of_lt (Nat.lt_two_pow n)) (Nat.pow_le_pow_right (by omega) (by omega)))

theorem split_lt {n : Nat} (h : 2 ≤ n) : split n < n := (split_spec h).2.1

theorem le_two_mul_split {n : Nat} (h : 2 ≤ n) : n ≤ 2 * split n := (split_spec h).2.2

theorem one_le_split {n : Nat} (h : 2 ≤ n) : 1 ≤ split n := by
  obtain ⟨⟨k, hk⟩, -⟩ := split_spec h
  rw [hk]
  exact Nat.one_le_two_pow

theorem pow_eq_of_between {n a b : Nat} (ha : 2 ^ a < n) (ha' : n ≤ 2 * 2 ^ a)
    (hb : 2 ^ b < n) (hb' : n ≤ 2 * 2 ^ b) : a = b := by
  have h1 : a < b + 1 := (Nat.pow_lt_pow_iff_right (by omega : 1 < 2)).mp
    (by rw [Nat.pow_succ]; omega)
  have h2 : b < a + 1 := (Nat.pow_lt_pow_iff_right (by omega : 1 < 2)).mp
    (by rw [Nat.pow_succ]; omega)
  omega

theorem split_eq_of {n k : Nat} (h1 : 2 ^ k < n) (h2 : n ≤ 2 * 2 ^ k) : split n = 2 ^ k := by
  have hn : 2 ≤ n := by have : 1 ≤ 2 ^ k := Nat.one_le_two_pow; omega
  obtain ⟨⟨j, hj⟩, hlt, hle⟩ := split_spec hn
  rw [hj] at hlt hle ⊢
  rw [pow_eq_of_between hlt hle h1 h2]

theorem split_two_mul_pow (k : Nat) : split (2 * 2 ^ k) = 2 ^ k :=
  split_eq_of (by have : 1 ≤ 2 ^ k := Nat.one_le_two_pow; omega) le_rfl

theorem split_eq_split {m n : Nat} (h : 2 ≤ n) (hm : split n < m) (hmn : m ≤ n) :
    split m = split n := by
  obtain ⟨⟨j, hj⟩, -, hle⟩ := split_spec h
  rw [hj] at hm hle ⊢
  exact split_eq_of hm (by omega)

end CompactLog
