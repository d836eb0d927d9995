import CompactLog.TreeShape
import Mathlib.Tactic.Ring

/-! Each node of the tree of size `n` roots the subtree its leaf range, cut at `n`, describes;
the loop from the last leaf climbs the right frontier, each node a right child. -/

namespace CompactLog

/-- The number of leaves of the idealised node that roots a subtree of `m` leaves: the least
power of two that is at least `m`. -/
def width (m : Nat) : Nat := if m ≤ 1 then 1 else 2 * split m

theorem width_pow (m : Nat) : ∃ k, width m = 2 ^ k := by
  unfold width
  split
  · exact ⟨0, rfl⟩
  · obtain ⟨⟨k, hk⟩, -⟩ := split_spec (by omega : 2 ≤ m)
    exact ⟨k + 1, by rw [hk, Nat.pow_succ, Nat.mul_comm]⟩

theorem le_width (m : Nat) : m ≤ width m := by
  unfold width
  split
  · omega
  · exact le_two_mul_split (by omega)

theorem width_lt {m : Nat} (hm : 1 ≤ m) : width m < 2 * m := by
  unfold width
  split
  · omega
  · have := split_lt (by omega : 2 ≤ m); omega

theorem width_of_pow {m k : Nat} (h : m = 2 ^ k) : width m = m := by
  cases k with
  | zero => simp [h, width]
  | succ k =>
    have : 1 ≤ 2 ^ k := Nat.one_le_two_pow
    rw [h, width, if_neg (by rw [Nat.pow_succ]; omega),
      show 2 ^ (k + 1) = 2 * 2 ^ k by rw [Nat.pow_succ, Nat.mul_comm], split_two_mul_pow]

theorem width_split {m : Nat} (hm : 2 ≤ m) : width (split m) = split m := by
  obtain ⟨⟨k, hk⟩, -⟩ := split_spec hm
  exact width_of_pow hk

theorem width_dvd {x k : Nat} (hx : 1 ≤ x) (hle : x ≤ 2 ^ k) : width x ∣ 2 ^ k := by
  obtain ⟨j, hj⟩ := width_pow x
  have hlt := width_lt hx
  rw [hj] at hlt ⊢
  have : j < k + 1 := (Nat.pow_lt_pow_iff_right (by omega : 1 < 2)).mp
    (by rw [Nat.pow_succ]; omega)
  exact Nat.pow_dvd_pow 2 (by omega)

theorem subtreeRoot_eq_width (a m : Nat) :
    subtreeRoot a m = 2 * a + width m - 1 := by
  unfold subtreeRoot width
  split <;> omega

/-- In the tree of size `n`, a subtree is aligned to its width, and it is complete unless it
ends at the last leaf. -/
def Aligned (n a m : Nat) : Prop := width m ∣ a ∧ (m = width m ∨ a + m = n)

theorem Aligned.children {n a m : Nat} (hm : 2 ≤ m) (h : Aligned n a m) :
    Aligned n a (split m) ∧ Aligned n (a + split m) (m - split m) := by
  obtain ⟨⟨k, hk⟩, hlt, hle⟩ := split_spec hm
  have hw : width m = 2 * split m := by simp [width, show ¬ m ≤ 1 by omega]
  have hws := width_split hm
  have hdvd : split m ∣ a := Nat.dvd_trans ⟨2, by rw [Nat.mul_comm]⟩ (hw ▸ h.1)
  have hr : width (m - split m) ∣ split m := hk ▸ width_dvd (by omega) (by omega)
  refine ⟨⟨hws.symm ▸ hdvd, .inl hws.symm⟩, ⟨Nat.dvd_add (Nat.dvd_trans hr hdvd) hr, ?_⟩⟩
  rcases h.2 with h2 | h2
  · left
    rw [hw] at h2
    rw [show m - split m = split m by omega, hws]
  · right; omega

theorem Subtree.aligned {n a m : Nat} (h : Subtree 0 n a m) : Aligned n a m :=
  h.induct_down ⟨Nat.dvd_zero _, .inr (Nat.zero_add n)⟩ fun _ _ hm ha => ha.children hm

theorem leafRangeAux_even (f y : Nat) : leafRangeAux f (2 * y) = (y, y + 1) := by
  cases f <;> simp [leafRangeAux]

theorem leafRangeAux_fuel : ∀ f g x, x ≤ f → x ≤ g → leafRangeAux f x = leafRangeAux g x := by
  intro f
  induction f with
  | zero => intro g x hf _; obtain rfl : x = 0 := by omega
            exact (leafRangeAux_even g 0).symm
  | succ f ih =>
    intro g x hf hg
    cases g with
    | zero => obtain rfl : x = 0 := by omega
              exact leafRangeAux_even _ 0
    | succ g =>
      simp only [leafRangeAux]
      split
      · rfl
      · rw [ih g (x / 2) (by omega) (by omega)]

theorem leafRange_even (y : Nat) : leafRange (2 * y) = (y, y + 1) := leafRangeAux_even _ y

theorem leafRange_odd (y : Nat) :
    leafRange (2 * y + 1) = (2 * (leafRange y).1, 2 * (leafRange y).2) := by
  rw [leafRange, leafRangeAux, if_neg (by omega), show (2 * y + 1) / 2 = y by omega,
    leafRangeAux_fuel (2 * y) y y (by omega) le_rfl, leafRange]

theorem two_pow_succ_odd_sub_one (k c : Nat) :
    2 ^ (k + 1) * (2 * c + 1) - 1 = 2 * (2 ^ k * (2 * c + 1) - 1) + 1 := by
  have hp : 1 ≤ 2 ^ k * (2 * c + 1) := Nat.mul_pos Nat.one_le_two_pow (by omega)
  rw [Nat.pow_succ, Nat.mul_comm (2 ^ k) 2, Nat.mul_assoc]; omega

theorem leafRange_pow (k c : Nat) :
    leafRange (2 ^ k * (2 * c + 1) - 1) = (c * 2 ^ k, (c + 1) * 2 ^ k) := by
  induction k with
  | zero => simpa using leafRange_even c
  | succ k ih =>
    rw [two_pow_succ_odd_sub_one, leafRange_odd, ih, Nat.pow_succ]
    congr 1 <;> ring

theorem levelAux_fuel : ∀ f g x, x ≤ f → x ≤ g → levelAux f x = levelAux g x := by
  intro f
  induction f with
  | zero => intro g x hf _; obtain rfl : x = 0 := by omega
            cases g <;> rfl
  | succ f ih =>
    intro g x hf hg
    cases g with
    | zero => obtain rfl : x = 0 := by omega
              rfl
    | succ g =>
      simp only [levelAux]
      split
      · rfl
      · rw [ih g (x / 2) (by omega) (by omega)]

theorem level_even (y : Nat) : level (2 * y) = 0 := by
  cases y <;> simp [level, levelAux]

theorem level_odd (y : Nat) : level (2 * y + 1) = level y + 1 := by
  rw [level, levelAux, if_neg (by omega), show (2 * y + 1) / 2 = y by omega,
    levelAux_fuel (2 * y) y y (by omega) le_rfl, level]

theorem level_pow (k c : Nat) : level (2 ^ k * (2 * c + 1) - 1) = k := by
  induction k with
  | zero => simpa using level_even c
  | succ k ih => rw [two_pow_succ_odd_sub_one, level_odd, ih]

theorem Subtree.root_eq {n a m : Nat} (h : Subtree 0 n a m) :
    ∃ k c, width m = 2 ^ k ∧ a = 2 ^ k * c ∧ subtreeRoot a m = 2 ^ k * (2 * c + 1) - 1 := by
  obtain ⟨k, hk⟩ := width_pow m
  obtain ⟨c, hc⟩ := h.aligned.1
  have hpos : 1 ≤ 2 ^ k := Nat.one_le_two_pow
  refine ⟨k, c, hk, hk ▸ hc, ?_⟩
  rw [subtreeRoot_eq_width a m, hc, hk, Nat.mul_add, Nat.mul_one]; ring_nf

theorem leafRange_subtreeRoot {n a m : Nat} (h : Subtree 0 n a m) :
    leafRange (subtreeRoot a m) = (a, a + width m) := by
  obtain ⟨k, c, hk, hc, he⟩ := h.root_eq
  rw [he, leafRange_pow, hc, hk, Prod.mk.injEq]
  constructor <;> ring

theorem level_subtreeRoot {n a m : Nat} (h : Subtree 0 n a m) :
    2 ^ level (subtreeRoot a m) = width m := by
  obtain ⟨k, c, hk, -, he⟩ := h.root_eq
  rw [he, level_pow, hk]

theorem truncRange_subtreeRoot {n a m : Nat} (h : Subtree 0 n a m) (hn : 1 ≤ n) :
    truncRange (subtreeRoot a m) n = (a, a + m) := by
  have hb := h.bounds hn
  have hw := le_width m
  rw [truncRange, leafRange_subtreeRoot h]
  rcases h.aligned.2 with h2 | h2 <;> simp only [Prod.mk.injEq, true_and] <;> omega

theorem exists_subtree_root {a0 m0 x : Nat} (hm : 1 ≤ m0) (h1 : 2 * a0 ≤ x)
    (h2 : x + 2 ≤ 2 * (a0 + m0)) : ∃ a m, Subtree a0 m0 a m ∧ subtreeRoot a m = x := by
  induction m0 using Nat.strong_induction_on generalizing a0 with
  | _ m0 ih =>
    by_cases h1' : m0 ≤ 1
    · exact ⟨a0, m0, .refl _ _, by rw [subtreeRoot_of_le_one h1']; omega⟩
    have hk := split_lt (by omega : 2 ≤ m0)
    have hk1 := one_le_split (by omega : 2 ≤ m0)
    rcases Nat.lt_trichotomy x (subtreeRoot a0 m0) with hx | hx | hx
    · rw [subtreeRoot_of_two_le (by omega)] at hx
      obtain ⟨a, m, hs, rfl⟩ := ih (split m0) hk hk1 h1 (by omega)
      exact ⟨a, m, .left (by omega) hs, rfl⟩
    · exact ⟨a0, m0, .refl _ _, hx.symm⟩
    · rw [subtreeRoot_of_two_le (by omega)] at hx
      obtain ⟨a, m, hs, rfl⟩ := @ih (m0 - split m0) (by omega) (a0 + split m0) (by omega)
        (by omega) (by omega)
      exact ⟨a, m, .right (by omega) hs, rfl⟩

theorem add_le_of_dvd {w x y : Nat} (hx : w ∣ x) (hy : w ∣ y) (h : x < y) : x + w ≤ y := by
  have := Nat.le_of_dvd (by omega) (Nat.dvd_sub' hy hx)
  omega

theorem pow_dvd_of_le {j k : Nat} (h : 2 ^ j ≤ 2 ^ k) : 2 ^ j ∣ 2 ^ k :=
  Nat.pow_dvd_pow 2 ((Nat.pow_le_pow_iff_right (by omega)).mp h)

theorem aligned_side {a0 m0 a m : Nat} (hm : 1 ≤ m) (hlt : m < m0) (h0 : a0 ≤ a)
    (hw : width m ∣ a - a0) (hc : m = width m ∨ a + m = a0 + m0) :
    a + m ≤ a0 + split m0 ∨ a0 + split m0 ≤ a := by
  obtain ⟨⟨k, hk⟩, -, hle⟩ := split_spec (by omega : 2 ≤ m0)
  obtain ⟨j, hj⟩ := width_pow m
  have hwm := le_width m
  rw [hk] at hle ⊢
  by_contra hs
  rcases Nat.lt_or_ge (2 ^ k) (2 ^ j) with hkj | hjk
  · have hbig : 2 * 2 ^ k ≤ 2 ^ j := by
      rw [← Nat.pow_succ']
      exact Nat.pow_le_pow_right (by omega) ((Nat.pow_lt_pow_iff_right (by omega)).mp hkj)
    rcases hc with hc | hc
    · omega
    · have := Nat.le_of_dvd (by omega : 0 < a - a0) hw
      omega
  · have := add_le_of_dvd (hj ▸ hw) (pow_dvd_of_le hjk) (show a - a0 < 2 ^ k by omega)
    omega

theorem subtree_of_aligned {a0 m0 a m : Nat} (hm : 1 ≤ m) (h0 : a0 ≤ a) (h1 : a + m ≤ a0 + m0)
    (hw : width m ∣ a - a0) (hc : m = width m ∨ a + m = a0 + m0) : Subtree a0 m0 a m := by
  induction m0 using Nat.strong_induction_on generalizing a0 with
  | _ m0 ih =>
    by_cases he : m = m0
    · obtain rfl : a = a0 := by omega
      subst he
      exact .refl _ _
    have h2 : 2 ≤ m0 := by omega
    have hk := split_lt h2
    rcases aligned_side hm (by omega) h0 hw hc with hs | hs
    · exact .left h2 (ih _ hk h0 hs hw (hc.imp_right fun h => by omega))
    · obtain ⟨⟨k, hk'⟩, -, hle⟩ := split_spec h2
      have hd : width m ∣ split m0 := hk' ▸ width_dvd hm (by omega)
      refine .right h2 (ih _ (by omega) hs (by omega) ?_ (hc.imp_right fun h => by omega))
      rw [show a - (a0 + split m0) = a - a0 - split m0 by omega]
      exact Nat.dvd_sub' hw hd

theorem subtree_iff {n a m : Nat} (hn : 1 ≤ n) :
    Subtree 0 n a m ↔ 1 ≤ m ∧ a + m ≤ n ∧ Aligned n a m := by
  refine ⟨fun h => ?_, fun ⟨hm, hle, hw, hc⟩ => ?_⟩
  · have := h.bounds hn
    exact ⟨this.2.2, by omega, h.aligned⟩
  · exact subtree_of_aligned hm (Nat.zero_le _) (by omega) (by simpa using hw)
      (hc.imp_right fun h => by omega)

theorem subtreeRoot_inj {n a m a' m' : Nat} (hn : 1 ≤ n) (h : Subtree 0 n a m)
    (h' : Subtree 0 n a' m') (he : subtreeRoot a m = subtreeRoot a' m') : a = a' ∧ m = m' := by
  have e1 := truncRange_subtreeRoot h hn
  rw [he, truncRange_subtreeRoot h' hn, Prod.mk.injEq] at e1
  omega

/-- The subtrees that end at the last leaf form the right frontier of the tree of size `n`; by
`subtree_iff` they are the non-empty blocks ending at `n` aligned to their width. -/
def OnFrontier (n a m : Nat) : Prop := 1 ≤ m ∧ a + m = n ∧ width m ∣ a

theorem OnFrontier.subtree {n a m : Nat} (h : OnFrontier n a m) : Subtree 0 n a m := by
  obtain ⟨hm, he, hw⟩ := h
  exact (subtree_iff (by omega)).mpr ⟨hm, by omega, hw, .inr he⟩

theorem OnFrontier.eq_top {n a m : Nat} (h : OnFrontier n a m) (hm : n ≤ m) : a = 0 ∧ m = n := by
  have := h.2.1
  omega

theorem onFrontier_leaf {n : Nat} (hn : 1 ≤ n) : OnFrontier n (n - 1) 1 :=
  ⟨le_rfl, by omega, by simp [width]⟩

theorem OnFrontier.exists_parent {n a m : Nat} (h : OnFrontier n a m) (hm : m < n) :
    ∃ a' m', OnFrontier n a' m' ∧ IsChild a' m' a m ∧ a = a' + split m' ∧ m < m' := by
  obtain ⟨a', m', hs, h2, hc⟩ := h.subtree.exists_parent hm
  have hb := hs.bounds (by omega)
  have hk := split_lt h2
  have hk1 := one_le_split h2
  have he := h.2.1
  rcases hc with ⟨rfl, rfl⟩ | ⟨rfl, rfl⟩
  · omega
  · have hf : a' + m' = n := by omega
    exact ⟨a', m', ⟨by omega, hf, hs.aligned.1⟩, ⟨h2, .inr ⟨rfl, rfl⟩⟩, rfl, by omega⟩

theorem OnFrontier.climb_step {n a m f : Nat} (h : OnFrontier n a m) (hm : m < n) :
    ∃ a' m', OnFrontier n a' m' ∧ m < m' ∧ a = a' + split m' ∧
      climb n (f + 1) (subtreeRoot a m) = subtreeRoot a m :: climb n f (subtreeRoot a' m') ∧
      parent (subtreeRoot a m) n = subtreeRoot a' m' ∧
      sibling (subtreeRoot a m) n = subtreeRoot a' (split m') ∧
      isLeft (subtreeRoot a m) n = false := by
  obtain ⟨a', m', hf, hc, ha, hlt⟩ := h.exists_parent hm
  have hne : a ≠ a' := by have := one_le_split hc.1; omega
  have hp := parent_child hf.subtree hc
  refine ⟨a', m', hf, hlt, ha, ?_, hp, by rw [sibling_child hf.subtree hc, if_neg hne], ?_⟩
  · have := (h.subtree.proper_root hm).1
    simp only [climb, rootIdx, if_neg this, hp]
  · simp [isLeft_child hf.subtree hc, hne]

theorem OnFrontier.climb_top {n a f : Nat} (h : OnFrontier n a n) :
    climb n f (subtreeRoot a n) = [] := by
  obtain ⟨rfl, -⟩ := h.eq_top le_rfl
  cases f <;> simp [climb, rootIdx]

theorem width_dvd_width {m r : Nat} (hm : 1 ≤ m) (h : m ≤ r) : width m ∣ width r := by
  obtain ⟨k, hk⟩ := width_pow r
  rw [hk]
  exact width_dvd hm (hk ▸ Nat.le_trans h (le_width r))

theorem OnFrontier.parent_le {n a m a' m' b r : Nat} (h : OnFrontier n a m)
    (hp : Subtree 0 n a' m') (hc : IsChild a' m' a m) (hb : OnFrontier n b r) (hr : m < r) :
    m' ≤ r := by
  have htop := hb.subtree
  obtain ⟨hm, he, hw⟩ := h
  obtain ⟨hr1, hbe, hbw⟩ := hb
  have hd : width m ∣ a - b :=
    Nat.dvd_sub' hw (Nat.dvd_trans (width_dvd_width hm (by omega)) hbw)
  have hsub : Subtree b r a m := subtree_of_aligned hm (by omega) (by omega) hd (.inr (by omega))
  obtain ⟨a'', m'', hs, h2, hc'⟩ := hsub.exists_parent hr
  have e := (parent_child hp hc).symm.trans (parent_child (htop.trans hs) ⟨h2, hc'⟩)
  have := subtreeRoot_inj (by omega) hp (htop.trans hs) e
  have := hs.bounds (by omega)
  omega

theorem OnFrontier.mem_climb {n a m f y : Nat} (h : OnFrontier n a m) (hf : n - m ≤ f) :
    y ∈ climb n f (subtreeRoot a m) ↔
      ∃ b r, OnFrontier n b r ∧ m ≤ r ∧ r < n ∧ y = subtreeRoot b r := by
  induction f generalizing a m with
  | zero =>
    simp only [climb, List.not_mem_nil, false_iff]
    rintro ⟨b, r, -, hr, hr', -⟩
    have := h.2.1
    omega
  | succ f ih =>
    by_cases hmn : m < n
    · obtain ⟨a', m', hf', hlt, ha, hc, hp, -, -⟩ := h.climb_step (f := f) hmn
      rw [hc, List.mem_cons, ih hf' (by omega)]
      constructor
      · rintro (rfl | ⟨b, r, hb, hr, hr', rfl⟩)
        · exact ⟨a, m, h, le_rfl, hmn, rfl⟩
        · exact ⟨b, r, hb, by omega, hr', rfl⟩
      · rintro ⟨b, r, hb, hr, hr', rfl⟩
        rcases Nat.eq_or_lt_of_le hr with rfl | hr
        · obtain rfl : b = a := by have := h.2.1; have := hb.2.1; omega
          exact .inl rfl
        · obtain ⟨a'', m'', hf'', hc'', -, -⟩ := h.exists_parent hmn
          have e := (parent_child hf''.subtree hc'').symm.trans hp
          obtain ⟨rfl, rfl⟩ := subtreeRoot_inj (by omega) hf''.subtree hf'.subtree e
          exact .inr ⟨b, r, hb, h.parent_le hf''.subtree hc'' hb hr, hr', rfl⟩
    · obtain ⟨rfl, rfl⟩ := h.eq_top (by omega)
      simp only [h.climb_top, List.not_mem_nil, false_iff]
      rintro ⟨b, r, -, hr, hr', -⟩
      omega

theorem OnFrontier.climb_parents {n a m f : Nat} (h : OnFrontier n a m) (hf : n - m ≤ f) :
    subtreeRoot a m :: (climb n f (subtreeRoot a m)).map (parent · n) =
      climb n f (subtreeRoot a m) ++ [rootIdx n] := by
  induction f generalizing a m with
  | zero =>
    obtain ⟨rfl, rfl⟩ := h.eq_top (by omega)
    simp [climb, rootIdx]
  | succ f ih =>
    by_cases hmn : m < n
    · obtain ⟨a', m', hf', hlt, -, hc, hp, -, -⟩ := h.climb_step (f := f) hmn
      rw [hc, List.map_cons, hp, ih hf' (by omega), List.cons_append]
    · obtain ⟨rfl, rfl⟩ := h.eq_top (by omega)
      simp [h.climb_top, rootIdx]

/-- The nodes the append of leaf `n - 1` writes, bottom to top: the values `cur` takes in the
loop from the leaf, then the root. -/
def walk (n : Nat) : List Nat := climb n n (2 * (n - 1)) ++ [rootIdx n]

theorem leaf_eq_subtreeRoot (n : Nat) : 2 * (n - 1) = subtreeRoot (n - 1) 1 :=
  (subtreeRoot_of_le_one le_rfl).symm

theorem mem_walk {n x : Nat} (hn : 1 ≤ n) :
    x ∈ walk n ↔ ∃ a m, OnFrontier n a m ∧ x = subtreeRoot a m := by
  have hl := onFrontier_leaf hn
  have hroot : OnFrontier n 0 n := ⟨hn, by omega, Nat.dvd_zero _⟩
  rw [walk, List.mem_append, leaf_eq_subtreeRoot, hl.mem_climb (by omega), List.mem_singleton]
  constructor
  · rintro (⟨b, r, hb, -, -, rfl⟩ | rfl)
    exacts [⟨b, r, hb, rfl⟩, ⟨0, n, hroot, rfl⟩]
  · rintro ⟨a, m, hf, rfl⟩
    rcases Nat.lt_or_ge m n with hm | hm
    · exact .inl ⟨a, m, hf, hf.1, hm, rfl⟩
    · obtain ⟨rfl, rfl⟩ := hf.eq_top hm
      exact .inr rfl

theorem walk_eq {n : Nat} (hn : 1 ≤ n) :
    2 * (n - 1) :: (climb n n (2 * (n - 1))).map (parent · n) = walk n := by
  rw [walk, leaf_eq_subtreeRoot]
  exact (onFrontier_leaf hn).climb_parents (by omega)

theorem truncRange_subtreeRoot_at {n a m : Nat} (h : Subtree 0 n a m) (c : Nat) :
    truncRange (subtreeRoot a m) c = (a, min (a + width m) c) := by
  rw [truncRange, leafRange_subtreeRoot h]

theorem not_mem_walk_succ {n x : Nat} (hx : x + 2 ≤ 2 * (n + 1)) (hw : x ∉ walk (n + 1)) :
    x + 2 ≤ 2 * n ∧ truncRange x n = truncRange x (n + 1) := by
  obtain ⟨a, m, hs, rfl⟩ := exists_subtree_root (by omega : 1 ≤ n + 1) (by omega : 2 * 0 ≤ x)
    (by omega)
  have hb := hs.bounds (by omega)
  obtain ⟨hd, hc⟩ := hs.aligned
  have hlt : a + m ≤ n := by
    by_contra hlt
    exact hw ((mem_walk (by omega)).mpr ⟨a, m, ⟨hb.2.2, by omega, hd⟩, rfl⟩)
  have hr := subtreeRoot_bounds a hb.2.2
  rcases hc with hc | hc
  · rw [truncRange_subtreeRoot_at hs, truncRange_subtreeRoot_at hs, ← hc]
    exact ⟨by omega, by simp only [Prod.mk.injEq, true_and]; omega⟩
  · omega

theorem leafRange_lt_of_not_mem_walk {n x : Nat} (hx : x + 2 ≤ 2 * n) (hw : x ∉ walk n) :
    (leafRange x).2 < n := by
  obtain ⟨a, m, hs, rfl⟩ := exists_subtree_root (by omega : 1 ≤ n) (by omega : 2 * 0 ≤ x)
    (by omega)
  have hb := hs.bounds (by omega)
  obtain ⟨hd, hc⟩ := hs.aligned
  have hne : a + m ≠ n := fun he => hw ((mem_walk (by omega)).mpr ⟨a, m, ⟨hb.2.2, he, hd⟩, rfl⟩)
  rw [leafRange_subtreeRoot hs]
  show a + width m < n
  omega

theorem OnFrontier.left_child {n a m : Nat} (h : OnFrontier n a m) (hm : 2 ≤ m) :
    OnFrontier (a + split m) a (split m) ∧ subtreeRoot a (split m) ∉ walk n ∧
      ∀ c, truncRange (subtreeRoot a (split m)) c = (a, min (a + split m) c) := by
  have hs := h.subtree.left_child hm
  have hk := split_lt hm
  have hw : width m = 2 * split m := by simp [width, show ¬ m ≤ 1 by omega]
  refine ⟨⟨one_le_split hm, rfl, ?_⟩, fun hmem => ?_, fun c => ?_⟩
  · rw [width_split hm]
    exact Nat.dvd_trans ⟨2, Nat.mul_comm _ _⟩ (hw ▸ h.2.2)
  · obtain ⟨b, r, hb, he⟩ := (mem_walk (by have := h.2.1; omega)).mp hmem
    have := subtreeRoot_inj (by have := h.2.1; omega) hs hb.subtree he
    have := h.2.1
    have := hb.2.1
    omega
  · rw [truncRange_subtreeRoot_at hs, width_split hm]

theorem walk_le {n y : Nat} (hn : 1 ≤ n) (h : y ∈ walk n) : y + 2 ≤ 2 * n := by
  obtain ⟨a, m, hf, rfl⟩ := (mem_walk hn).mp h
  have := subtreeRoot_bounds a hf.1
  have := hf.2.1
  omega

theorem sibling_of_mem_climb {p cur : Nat} (hcur : cur ∈ climb (p + 1) (p + 1) (2 * p)) :
    isLeft cur (p + 1) = false ∧
      ∃ q, q ≤ p ∧ sibling cur (p + 1) ∈ walk q ∧ sibling cur (p + 1) + 2 ≤ 2 * q := by
  have hl := onFrontier_leaf (n := p + 1) (by omega)
  rw [show 2 * p = subtreeRoot (p + 1 - 1) 1 by rw [subtreeRoot_of_le_one le_rfl]; omega] at hcur
  obtain ⟨b, r, hb, -, hr, rfl⟩ := (hl.mem_climb (by omega)).mp hcur
  obtain ⟨a', m', hf', hlt, hba, -, -, hs, hleft⟩ := hb.climb_step (f := 0) hr
  have h2 : 2 ≤ m' := by have := hb.1; omega
  have hk := one_le_split h2
  have hbd := subtreeRoot_bounds a' hk
  refine ⟨hleft, b, by have := hb.2.1; have := hb.1; omega, ?_, by rw [hs]; omega⟩
  rw [hs, mem_walk (by omega), hba]
  exact ⟨a', split m', (hf'.left_child h2).1, rfl⟩

theorem OnFrontier.level_lt_parent {n a m : Nat} (h : OnFrontier n a m) (hm : m < n) :
    level (subtreeRoot a m) < level (parent (subtreeRoot a m) n) := by
  obtain ⟨a', m', hf', hlt, ha, -, hp, -, -⟩ := h.climb_step (f := 0) hm
  have h2 : 2 ≤ m' := by have := h.1; omega
  obtain ⟨⟨j, hj⟩, -, hle⟩ := split_spec h2
  have hmj : m ≤ 2 ^ j := by have := h.2.1; have := hf'.2.1; omega
  have hw : width m ≤ 2 ^ j := Nat.le_of_dvd Nat.one_le_two_pow (width_dvd h.1 hmj)
  have hw' : width m' = 2 * 2 ^ j := by simp [width, show ¬ m' ≤ 1 by omega, hj]
  rw [hp, ← Nat.pow_lt_pow_iff_right (by omega : 1 < 2), level_subtreeRoot h.subtree,
    level_subtreeRoot hf'.subtree, hw']
  omega

theorem OnFrontier.iterate_parent {n : Nat} :
    ∀ f {a m}, OnFrontier n a m → n - m ≤ f →
      ∃ k, (parent · n)^[k] (subtreeRoot a m) = rootIdx n ∧
        (∀ j < k, (parent · n)^[j] (subtreeRoot a m) ≠ rootIdx n ∧
          level ((parent · n)^[j] (subtreeRoot a m)) <
            level ((parent · n)^[j + 1] (subtreeRoot a m))) ∧
        climb n f (subtreeRoot a m) = (List.range k).map fun j => (parent · n)^[j] (subtreeRoot a m) := by
  intro f
  induction f using Nat.strong_induction_on with
  | _ f ih =>
    intro a m h hf
    by_cases hmn : m < n
    · obtain ⟨f, rfl⟩ : ∃ f', f = f' + 1 := ⟨f - 1, by omega⟩
      obtain ⟨a', m', hf', hlt, -, hc, hp, -, -⟩ := h.climb_step (f := f) hmn
      obtain ⟨k, hk, hj, hcl⟩ := ih f (by omega) hf' (by omega)
      refine ⟨k + 1, by rw [Function.iterate_succ_apply, hp, hk], fun j hjk => ?_, ?_⟩
      · cases j with
        | zero =>
          refine ⟨(h.subtree.proper_root hmn).1, ?_⟩
          simpa using h.level_lt_parent hmn
        | succ j => simpa only [Function.iterate_succ_apply, hp] using hj j (by omega)
      · rw [hc, hcl, List.range_succ_eq_map, List.map_cons, List.map_map]
        simp only [Function.iterate_zero_apply, Function.comp_def, Function.iterate_succ_apply, hp]
    · obtain ⟨rfl, rfl⟩ := h.eq_top (by omega)
      exact ⟨0, rfl, fun _ h => absurd h (Nat.not_lt_zero _), by rw [h.climb_top]; rfl⟩

/-- The walk loops terminate: in the tree of any size `n ≥ 1` (so of every `u64` size), the loop
`while cur != root_idx(n) { ...; cur = cur.parent(n) }` started at leaf `2 * (n - 1)` reaches
the root after `k` passes. It never calls `parent` on the root, each pass raises `cur`'s level,
and the values it takes are the list `climb n n (2 * (n - 1))` that the prefetch and recompute
loops of `batch_push_with_data` and the loop of `recalculate_path_batch` run over. -/
theorem walk_loop_terminates {n : Nat} (hn : 1 ≤ n) :
    ∃ k, (parent · n)^[k] (2 * (n - 1)) = rootIdx n ∧
      (∀ j < k, (parent · n)^[j] (2 * (n - 1)) ≠ rootIdx n ∧
        level ((parent · n)^[j] (2 * (n - 1))) < level ((parent · n)^[j + 1] (2 * (n - 1)))) ∧
      climb n n (2 * (n - 1)) = (List.range k).map fun j => (parent · n)^[j] (2 * (n - 1)) := by
  rw [leaf_eq_subtreeRoot]
  exact (onFrontier_leaf hn).iterate_parent n (by omega)

theorem walk_of_six_terminates :
    ∃ k, (parent · 6)^[k] (2 * (6 - 1)) = rootIdx 6 ∧
      (∀ j < k, (parent · 6)^[j] (2 * (6 - 1)) ≠ rootIdx 6 ∧
        level ((parent · 6)^[j] (2 * (6 - 1))) < level ((parent · 6)^[j + 1] (2 * (6 - 1)))) ∧
      climb 6 6 (2 * (6 - 1)) = (List.range k).map fun j => (parent · 6)^[j] (2 * (6 - 1)) :=
  walk_loop_terminates (by decide)

end CompactLog
