import CompactLog.Store
import CompactLog.Tree

/-! RFC 6962's audit path and consistency proof, the verifier's checks, and that the nodes
ct-merkle lists for a proof hash to the RFC's proof, which verifies. -/

namespace CompactLog

section Rfc

variable {T : Type} (H : Hasher) (C : LeafCodec T)

/-- Modelled from the spec: RFC 6962's audit path `PATH(m, D)` of leaf `m`, bottom to top,
given `fuel` at least the number of leaves. -/
def pathAux : Nat → Nat → List T → List Bytes
  | 0, _, _ => []
  | fuel + 1, m, D =>
    if 2 ≤ D.length then
      if m < split D.length then
        pathAux fuel m (D.take (split D.length)) ++ [mth H C (D.drop (split D.length))]
      else
        pathAux fuel (m - split D.length) (D.drop (split D.length)) ++
          [mth H C (D.take (split D.length))]
    else []

/-- RFC 6962's `PATH(m, D)`. -/
def auditPath (m : Nat) (D : List T) : List Bytes := pathAux H C D.length m D

/-- Modelled from the spec: RFC 6962's `SUBPROOF(m, D, b)`, given `fuel` at least the number of
leaves. -/
def subproof : Nat → Nat → List T → Bool → List Bytes
  | 0, _, _, _ => []
  | fuel + 1, m, D, b =>
    if m = D.length then (if b then [] else [mth H C D])
    else if m ≤ split D.length then
      subproof fuel m (D.take (split D.length)) b ++ [mth H C (D.drop (split D.length))]
    else
      subproof fuel (m - split D.length) (D.drop (split D.length)) false ++
        [mth H C (D.take (split D.length))]

/-- RFC 6962's consistency proof `PROOF(m, D)`. -/
def consistencyPath (m : Nat) (D : List T) : List Bytes := subproof H C D.length m D true

end Rfc

section Verify

variable (H : Hasher)

/-- Modelled from the spec: the root that an audit path, read top to bottom, gives leaf `m` of a
tree of `n` leaves whose leaf hash is `leaf`; `fuel` at least `n`. -/
def rootFromPath : Nat → Nat → Nat → Bytes → List Bytes → Option Bytes
  | 0, _, _, _, _ => none
  | fuel + 1, m, n, leaf, p =>
    if n ≤ 1 then (if p = [] then some leaf else none)
    else match p with
      | [] => none
      | s :: p =>
        if m < split n then (rootFromPath fuel m (split n) leaf p).map (parentHash H · s)
        else (rootFromPath fuel (m - split n) (n - split n) leaf p).map (parentHash H s)

/-- Modelled from the spec: the old and the new root that a consistency proof, read top to
bottom, gives for the sizes `m ≤ n`. While the old tree is the left part of the new one (`b`),
its root is the `old` the verifier holds. -/
def rootsFromProof : Nat → Nat → Nat → Bool → Bytes → List Bytes → Option (Bytes × Bytes)
  | 0, _, _, _, _, _ => none
  | fuel + 1, m, n, b, old, p =>
    if m = n then
      match b, p with
      | true, [] => some (old, old)
      | false, [h] => some (h, h)
      | _, _ => none
    else match p with
      | [] => none
      | s :: p =>
        if m ≤ split n then
          (rootsFromProof fuel m (split n) b old p).map fun r => (r.1, parentHash H r.2 s)
        else
          (rootsFromProof fuel (m - split n) (n - split n) false old p).map fun r =>
            (parentHash H s r.1, parentHash H s r.2)

/-- `bytes.chunks(size)`, given `fuel` at least the number of pieces. -/
def chunks (size : Nat) : Nat → Bytes → List Bytes
  | 0, _ => []
  | fuel + 1, bs => if bs = [] then [] else bs.take size :: chunks size fuel (bs.drop size)

/-- The digests a verifier reads from the bytes of a proof. -/
def digestsOf (bytes : Bytes) : List Bytes := chunks H.outputSize bytes.length bytes

variable {T : Type} (C : LeafCodec T)

/-- Modelled from the spec: the check of a proof that `val` is leaf `idx` of the tree with root
`root`. -/
def RootHash.VerifiesInclusion (root : RootHash) (val : T) (idx : Nat) (proof : InclusionProof) :
    Prop :=
  idx < root.numLeaves ∧ rootFromPath H root.numLeaves idx root.numLeaves (leafHash H C val)
    (digestsOf H proof.proof).reverse = some root.hash

/-- Modelled from the spec: the check of a proof that the tree with root `old` is a prefix of
the tree with root `new`. -/
def RootHash.VerifiesConsistency (old new : RootHash) (proof : ConsistencyProof) : Prop :=
  0 < old.numLeaves ∧ old.numLeaves ≤ new.numLeaves ∧
    rootsFromProof H new.numLeaves old.numLeaves new.numLeaves true old.hash
      (digestsOf H proof.proof).reverse = some (old.hash, new.hash)

instance (root : RootHash) (val : T) (idx : Nat) (proof : InclusionProof) :
    Decidable (root.VerifiesInclusion H C val idx proof) :=
  inferInstanceAs (Decidable (_ ∧ _))

instance (old new : RootHash) (proof : ConsistencyProof) :
    Decidable (old.VerifiesConsistency H new proof) :=
  inferInstanceAs (Decidable (_ ∧ _ ∧ _))

end Verify

/-- The nodes of `PATH(i - a, D[a : a + m])`: the siblings met from leaf `i` up to the root of the
subtree over `[a, a + m)`, bottom to top. -/
def pathIdx : Nat → Nat → Nat → Nat → List Nat
  | 0, _, _, _ => []
  | fuel + 1, i, a, m =>
    if m ≤ 1 then []
    else if i < a + split m then
      pathIdx fuel i a (split m) ++ [subtreeRoot (a + split m) (m - split m)]
    else pathIdx fuel i (a + split m) (m - split m) ++ [subtreeRoot a (split m)]

section Indices

variable {T : Type} (H : Hasher) (C : LeafCodec T) {n : Nat}

theorem climb_child {a m c d f : Nat} (h : Subtree 0 n a m) (hn : 1 ≤ n) (hc : IsChild a m c d) :
    climb n (f + 1) (subtreeRoot c d) = subtreeRoot c d :: climb n f (subtreeRoot a m) := by
  have hb := h.bounds hn
  have hne := ((h.trans hc.subtree).proper_root (by have := hc.lt; omega)).1
  simp only [climb, rootIdx, if_neg hne, parent_child h hc]

theorem climb_leaf {a m i : Nat} (h : Subtree 0 n a m) (hn : 1 ≤ n) (hi : a ≤ i)
    (hi' : i < a + m) :
    ∃ below : List Nat, below.length < m ∧
      (∀ f, climb n (below.length + f) (2 * i) = below ++ climb n f (subtreeRoot a m)) ∧
      ∀ g, m ≤ g → below.map (sibling · n) = pathIdx g i a m := by
  induction m using Nat.strong_induction_on generalizing a with
  | _ m ih =>
  by_cases hm : m ≤ 1
  · obtain rfl : i = a := by omega
    refine ⟨[], by simp; omega, fun f => by simp [subtreeRoot_of_le_one hm], fun g hg => ?_⟩
    obtain ⟨g, rfl⟩ : ∃ g₀, g = g₀ + 1 := ⟨g - 1, by omega⟩
    simp [pathIdx, hm]
  have hm2 : 2 ≤ m := by omega
  have hk := split_lt hm2
  have hk1 := one_le_split hm2
  have step : ∀ {c d} (L : List Nat), IsChild a m c d →
      (∀ f, climb n (L.length + f) (2 * i) = L ++ climb n f (subtreeRoot c d)) →
      ∀ f, climb n ((L ++ [subtreeRoot c d]).length + f) (2 * i) =
        (L ++ [subtreeRoot c d]) ++ climb n f (subtreeRoot a m) := fun L hch hc f => by
    rw [List.length_append, List.length_singleton, Nat.add_assoc, Nat.add_comm 1 f, hc,
      climb_child h hn hch, List.append_assoc, List.singleton_append]
  by_cases hl : i < a + split m
  · have hch : IsChild a m a (split m) := ⟨hm2, .inl ⟨rfl, rfl⟩⟩
    obtain ⟨below, hlen, hc, hp⟩ := ih (split m) hk (h.left_child hm2) hi hl
    refine ⟨below ++ [subtreeRoot a (split m)], by simp; omega, step below hch hc, fun g hg => ?_⟩
    obtain ⟨g, rfl⟩ : ∃ g₀, g = g₀ + 1 := ⟨g - 1, by omega⟩
    rw [List.map_append, hp g (by omega), List.map_singleton, sibling_child h hch, if_pos rfl]
    simp only [pathIdx, if_neg hm, if_pos hl]
  · have hch : IsChild a m (a + split m) (m - split m) := ⟨hm2, .inr ⟨rfl, rfl⟩⟩
    obtain ⟨below, hlen, hc, hp⟩ :=
      ih (m - split m) (by omega) (h.right_child hm2) (by omega) (by omega)
    refine ⟨below ++ [subtreeRoot (a + split m) (m - split m)], by simp; omega, step below hch hc,
      fun g hg => ?_⟩
    obtain ⟨g, rfl⟩ : ∃ g₀, g = g₀ + 1 := ⟨g - 1, by omega⟩
    rw [List.map_append, hp g (by omega), List.map_singleton, sibling_child h hch,
      if_neg (by omega)]
    simp only [pathIdx, if_neg hm, if_neg hl]

theorem pathIdx_map_nodeHash {F : List T} {a m i : Nat} (h : Subtree 0 n a m) (hn : 1 ≤ n)
    (hF : n ≤ F.length) (hi : a ≤ i) (hi' : i < a + m) {g g' : Nat} (hg : m ≤ g) (hg' : m ≤ g') :
    (pathIdx g i a m).map (nodeHash H C F n) = pathAux H C g' (i - a) (slice F a (a + m)) := by
  induction m using Nat.strong_induction_on generalizing a g g' with
  | _ m ih =>
  have hb := h.bounds hn
  have hlen : (slice F a (a + m)).length = m := by rw [slice_length (by omega)]; omega
  obtain ⟨g, rfl⟩ : ∃ g₀, g = g₀ + 1 := ⟨g - 1, by omega⟩
  obtain ⟨g', rfl⟩ : ∃ g₀, g' = g₀ + 1 := ⟨g' - 1, by omega⟩
  by_cases hm : m ≤ 1
  · simp [pathIdx, pathAux, hm, hlen, show ¬ 2 ≤ m by omega]
  have hm2 : 2 ≤ m := by omega
  have hk := split_lt hm2
  have hk1 := one_le_split hm2
  simp only [pathIdx, pathAux, if_neg hm, hlen, if_pos hm2,
    slice_take F a (a + m) (split m) (by omega), slice_drop]
  by_cases hl : i < a + split m
  · rw [if_pos hl, if_pos (by omega : i - a < split m), List.map_append,
      ih _ hk (h.left_child hm2) hi hl (show split m ≤ g by omega) (show split m ≤ g' by omega),
      List.map_singleton,
      nodeHash_subtreeRoot (h.right_child hm2) hn, show a + split m + (m - split m) = a + m by omega]
  · rw [if_neg hl, if_neg (by omega : ¬ i - a < split m), List.map_append,
      ih _ (by omega) (h.right_child hm2) (by omega) (by omega) (show m - split m ≤ g by omega)
        (show m - split m ≤ g' by omega),
      List.map_singleton, nodeHash_subtreeRoot (h.left_child hm2) hn, Nat.sub_sub,
      show a + split m + (m - split m) = a + m by omega]

theorem indicesForInclusionProof_eq {i : Nat} (hi : i < n) :
    indicesForInclusionProof n i = pathIdx n i 0 n := by
  have hn : 1 ≤ n := by omega
  obtain ⟨below, hlen, hc, hp⟩ := climb_leaf (.refl 0 n) hn (Nat.zero_le i) (by omega)
  have htop : OnFrontier n 0 n := ⟨hn, by omega, Nat.dvd_zero _⟩
  have e := hc (n - below.length)
  rw [Nat.add_sub_of_le hlen.le, htop.climb_top, List.append_nil] at e
  rw [indicesForInclusionProof, e, hp n le_rfl]

theorem mem_pathIdx {i x : Nat} : ∀ {g a m : Nat}, x ∈ pathIdx g i a m →
    ∃ c d, Subtree a m c d ∧ x = subtreeRoot c d
  | 0, _, _, hx => by simp [pathIdx] at hx
  | g + 1, a, m, hx => by
    simp only [pathIdx] at hx
    split_ifs at hx with hm hl <;>
      simp only [List.mem_append, List.mem_singleton, List.not_mem_nil] at hx
    · rcases hx with hx | rfl
      · obtain ⟨c, d, hs, rfl⟩ := mem_pathIdx hx
        exact ⟨c, d, .left (by omega) hs, rfl⟩
      · exact ⟨_, _, .right (by omega) (.refl _ _), rfl⟩
    · rcases hx with hx | rfl
      · obtain ⟨c, d, hs, rfl⟩ := mem_pathIdx hx
        exact ⟨c, d, .right (by omega) hs, rfl⟩
      · exact ⟨_, _, .left (by omega) (.refl _ _), rfl⟩

theorem lt_of_mem_indicesForInclusionProof {i x : Nat} (hi : i < n)
    (hx : x ∈ indicesForInclusionProof n i) : x + 2 ≤ 2 * n := by
  rw [indicesForInclusionProof_eq hi] at hx
  obtain ⟨c, d, hs, rfl⟩ := mem_pathIdx hx
  have hb := hs.bounds (by omega)
  have := subtreeRoot_bounds c hb.2.2
  omega

theorem inclusionProof_hashes {F : List T} {i : Nat} (hi : i < n) (hF : n ≤ F.length) :
    (indicesForInclusionProof n i).map (nodeHash H C F n) = auditPath H C i (F.take n) := by
  have hl : (F.take n).length = n := by simp; omega
  rw [indicesForInclusionProof_eq hi,
    pathIdx_map_nodeHash H C (.refl 0 n) (by omega) hF (Nat.zero_le i) (by omega) le_rfl le_rfl,
    auditPath, hl, Nat.sub_zero]
  simp [slice]

theorem subproofIdx_map_nodeHash {F : List T} {a k m : Nat} (h : Subtree 0 n a k) (hn : 1 ≤ n)
    (hF : n ≤ F.length) (hm : 0 < m) (hmk : m ≤ k) (b : Bool) {g g' : Nat} (hg : k ≤ g)
    (hg' : k ≤ g') :
    (subproofIdx g m a k b).map (nodeHash H C F n) = subproof H C g' m (slice F a (a + k)) b := by
  induction k using Nat.strong_induction_on generalizing a m b g g' with
  | _ k ih =>
  have hb := h.bounds hn
  have hlen : (slice F a (a + k)).length = k := by rw [slice_length (by omega)]; omega
  obtain ⟨g, rfl⟩ : ∃ g₀, g = g₀ + 1 := ⟨g - 1, by omega⟩
  obtain ⟨g', rfl⟩ : ∃ g₀, g' = g₀ + 1 := ⟨g' - 1, by omega⟩
  by_cases he : m = k
  · subst he
    cases b <;> simp [subproofIdx, subproof, hlen, nodeHash_subtreeRoot h hn]
  have hk2 : 2 ≤ k := by omega
  have hs := split_lt hk2
  have hs1 := one_le_split hk2
  simp only [subproofIdx, subproof, if_neg he, hlen, slice_take F a (a + k) (split k) (by omega),
    slice_drop]
  by_cases hl : m ≤ split k
  · rw [if_pos hl, if_pos hl, List.map_append,
      ih _ hs (h.left_child hk2) hm hl b (show split k ≤ g by omega) (show split k ≤ g' by omega), List.map_singleton,
      nodeHash_subtreeRoot (h.right_child hk2) hn, show a + split k + (k - split k) = a + k by omega]
  · rw [if_neg hl, if_neg hl, List.map_append,
      ih _ (by omega) (h.right_child hk2) (by omega) (by omega) false
        (show k - split k ≤ g by omega) (show k - split k ≤ g' by omega),
      List.map_singleton, nodeHash_subtreeRoot (h.left_child hk2) hn,
      show a + split k + (k - split k) = a + k by omega]

theorem mem_subproofIdx {x : Nat} : ∀ {g m a k : Nat} {b : Bool}, 0 < m → m ≤ k →
    x ∈ subproofIdx g m a k b → ∃ c d, Subtree a k c d ∧ x = subtreeRoot c d
  | 0, _, _, _, _, _, _, hx => by simp [subproofIdx] at hx
  | g + 1, m, a, k, b, hm, hmk, hx => by
    simp only [subproofIdx] at hx
    split_ifs at hx with he hb hl <;>
      simp only [List.mem_append, List.mem_singleton, List.not_mem_nil] at hx
    · exact ⟨a, k, .refl _ _, hx⟩
    all_goals have hk2 : 2 ≤ k := by omega
    · rcases hx with hx | rfl
      · obtain ⟨c, d, hs, rfl⟩ := mem_subproofIdx hm hl hx
        exact ⟨c, d, .left hk2 hs, rfl⟩
      · exact ⟨_, _, .right hk2 (.refl _ _), rfl⟩
    · rcases hx with hx | rfl
      · obtain ⟨c, d, hs, rfl⟩ := mem_subproofIdx (by omega) (by omega) hx
        exact ⟨c, d, .right hk2 hs, rfl⟩
      · exact ⟨_, _, .left hk2 (.refl _ _), rfl⟩

theorem lt_of_mem_indicesForConsistencyProof {m x : Nat} (hm : 0 < m) (hmn : m ≤ n)
    (hx : x ∈ indicesForConsistencyProof m (n - m)) : x + 2 ≤ 2 * n := by
  rw [indicesForConsistencyProof, Nat.add_sub_of_le hmn] at hx
  obtain ⟨c, d, hs, rfl⟩ := mem_subproofIdx hm hmn hx
  have hb := hs.bounds (by omega)
  have := subtreeRoot_bounds c hb.2.2
  omega

theorem consistencyProof_hashes {F : List T} {m : Nat} (hm : 0 < m) (hmn : m ≤ n)
    (hF : n ≤ F.length) :
    (indicesForConsistencyProof m (n - m)).map (nodeHash H C F n) =
      consistencyPath H C m (F.take n) := by
  have hl : (F.take n).length = n := by simp; omega
  rw [indicesForConsistencyProof, Nat.add_sub_of_le hmn,
    subproofIdx_map_nodeHash H C (.refl 0 n) (by omega) hF hm hmn true le_rfl le_rfl,
    consistencyPath, hl]
  simp [slice]

end Indices

section Verified

variable {T : Type} (H : Hasher) (C : LeafCodec T)

theorem pathAux_length : ∀ g m (D : List T), ∀ x ∈ pathAux H C g m D, x.length = H.outputSize
  | 0, _, _, _, hx => by simp [pathAux] at hx
  | g + 1, m, D, x, hx => by
    simp only [pathAux] at hx
    split_ifs at hx <;>
      simp only [List.mem_append, List.mem_singleton, List.not_mem_nil] at hx <;>
      rcases hx with hx | rfl
    exacts [pathAux_length g _ _ x hx, mth_length _, pathAux_length g _ _ x hx, mth_length _]

theorem subproof_length : ∀ g m (D : List T) b, ∀ x ∈ subproof H C g m D b,
    x.length = H.outputSize
  | 0, _, _, _, _, hx => by simp [subproof] at hx
  | g + 1, m, D, b, x, hx => by
    simp only [subproof] at hx
    split_ifs at hx <;>
      simp only [List.mem_append, List.mem_singleton, List.not_mem_nil, false_or] at hx
    · exact hx ▸ mth_length _
    all_goals rcases hx with hx | rfl
    exacts [subproof_length g _ _ _ x hx, mth_length _, subproof_length g _ _ _ x hx, mth_length _]

theorem chunks_flatten {size : Nat} (hs : 0 < size) :
    ∀ (ds : List Bytes) fuel, (∀ d ∈ ds, d.length = size) → ds.flatten.length ≤ fuel →
      chunks size fuel ds.flatten = ds
  | [], fuel, _, _ => by cases fuel <;> simp [chunks]
  | d :: ds, fuel, h, hf => by
    have hd := h d (List.mem_cons_self _ _)
    rw [List.flatten_cons] at hf ⊢
    rw [List.length_append] at hf
    obtain ⟨fuel, rfl⟩ : ∃ f, fuel = f + 1 := ⟨fuel - 1, by omega⟩
    have hne : d ++ ds.flatten ≠ [] := fun he => by
      have := congrArg List.length he
      simp only [List.length_append, List.length_nil] at this
      omega
    rw [chunks, if_neg hne, List.take_left' hd, List.drop_left' hd,
      chunks_flatten hs ds fuel (fun d' hd' => h d' (List.mem_cons_of_mem _ hd')) (by omega)]

theorem digestsOf_flatten {ds : List Bytes} (h : ∀ d ∈ ds, d.length = H.outputSize) :
    digestsOf H ds.flatten = ds :=
  chunks_flatten H.outputSize_pos ds _ h le_rfl

theorem rootFromPath_pathAux {fuel g m : Nat} {D : List T} {d : T} (hd : D[m]? = some d)
    (hf : D.length ≤ fuel) (hg : D.length ≤ g) :
    rootFromPath H fuel m D.length (leafHash H C d) (pathAux H C g m D).reverse =
      some (mth H C D) := by
  induction fuel generalizing g m D with
  | zero =>
    rw [List.length_eq_zero.mp (by omega : D.length = 0)] at hd
    simp at hd
  | succ fuel ih =>
    have hm : m < D.length := (List.getElem?_eq_some_iff.mp hd).1
    obtain ⟨g, rfl⟩ : ∃ g₀, g = g₀ + 1 := ⟨g - 1, by omega⟩
    by_cases h2 : 2 ≤ D.length
    · have hk := split_lt h2
      have hk1 := one_le_split h2
      have hl : (D.take (split D.length)).length = split D.length := by simp; omega
      have hr : (D.drop (split D.length)).length = D.length - split D.length := List.length_drop ..
      rw [mth_split h2]
      by_cases hlt : m < split D.length
      · have e := ih (D := D.take (split D.length)) (g := g)
          (by rw [List.getElem?_take_of_lt hlt]; exact hd) (by omega) (by omega)
        rw [hl] at e
        simp only [pathAux, if_pos h2, if_pos hlt, List.reverse_append, List.reverse_singleton,
          List.singleton_append, rootFromPath, if_neg (show ¬ D.length ≤ 1 by omega), e,
          Option.map_some']
      · have e := ih (m := m - split D.length) (D := D.drop (split D.length)) (g := g)
          (by rw [List.getElem?_drop, Nat.add_sub_of_le (by omega)]; exact hd) (by omega)
          (by omega)
        rw [hr] at e
        simp only [pathAux, if_pos h2, if_neg hlt, List.reverse_append, List.reverse_singleton,
          List.singleton_append, rootFromPath, if_neg (show ¬ D.length ≤ 1 by omega), e,
          Option.map_some']
    · obtain ⟨x, rfl⟩ := List.length_eq_one.mp (by omega : D.length = 1)
      obtain rfl : m = 0 := by simp at hm; omega
      obtain rfl : x = d := by simpa using hd
      simp [pathAux, rootFromPath]

theorem rootsFromProof_subproof {fuel g m : Nat} {D : List T} {b : Bool} {old : Bytes}
    (hm : 0 < m) (hmD : m ≤ D.length) (hf : D.length ≤ fuel) (hg : D.length ≤ g)
    (hold : b = true → old = mth H C (D.take m)) :
    rootsFromProof H fuel m D.length b old (subproof H C g m D b).reverse =
      some (mth H C (D.take m), mth H C D) := by
  induction fuel generalizing g m D b with
  | zero => omega
  | succ fuel ih =>
    obtain ⟨g, rfl⟩ : ∃ g₀, g = g₀ + 1 := ⟨g - 1, by omega⟩
    by_cases he : m = D.length
    · subst he
      cases b
      · simp [subproof, rootsFromProof]
      · simp [subproof, rootsFromProof, hold rfl]
    have h2 : 2 ≤ D.length := by omega
    have hk := split_lt h2
    have hk1 := one_le_split h2
    have hl : (D.take (split D.length)).length = split D.length := by simp; omega
    have hr : (D.drop (split D.length)).length = D.length - split D.length := List.length_drop ..
    by_cases hlt : m ≤ split D.length
    · have e := ih (D := D.take (split D.length)) (b := b) (g := g) hm (by omega) (by omega)
        (by omega) fun hb => by rw [hold hb, List.take_take, Nat.min_eq_left hlt]
      rw [hl, List.take_take, Nat.min_eq_left hlt] at e
      simp only [subproof, if_neg he, if_pos hlt, List.reverse_append, List.reverse_singleton,
        List.singleton_append, rootsFromProof, e, Option.map_some', ← mth_split h2]
    · have e := ih (m := m - split D.length) (D := D.drop (split D.length)) (b := false) (g := g)
        (by omega) (by omega) (by omega) (by omega) nofun
      rw [hr] at e
      have hs : split m = split D.length := split_eq_split h2 (by omega) hmD
      have htm : (D.take m).length = m := by simp; omega
      rw [mth_split h2, mth_split (D := D.take m) (by omega), htm, hs, List.take_take,
        Nat.min_eq_left (by omega), List.drop_take]
      simp only [subproof, if_neg he, if_neg hlt, List.reverse_append, List.reverse_singleton,
        List.singleton_append, rootsFromProof, e, Option.map_some']

theorem auditPath_verifies {D : List T} {i n : Nat} {d : T} (hn : D.length = n)
    (hd : D[i]? = some d) :
    RootHash.VerifiesInclusion H C ⟨mth H C D, n⟩ d i
      (InclusionProof.fromDigests (auditPath H C i D)) := by
  subst hn
  refine ⟨(List.getElem?_eq_some_iff.mp hd).1, ?_⟩
  show rootFromPath H D.length i D.length (leafHash H C d)
    (digestsOf H (pathAux H C D.length i D).flatten).reverse = some (mth H C D)
  rw [digestsOf_flatten H (pathAux_length H C _ _ _)]
  exact rootFromPath_pathAux H C hd le_rfl le_rfl

theorem consistencyPath_verifies {D : List T} {m : Nat} (hm : 0 < m) (hmD : m ≤ D.length) :
    RootHash.VerifiesConsistency H ⟨mth H C (D.take m), m⟩ ⟨mth H C D, D.length⟩
      (ConsistencyProof.fromDigests (consistencyPath H C m D)) :=
  ⟨hm, hmD, by
    show rootsFromProof H D.length m D.length true (mth H C (D.take m))
      (digestsOf H (subproof H C D.length m D true).flatten).reverse =
        some (mth H C (D.take m), mth H C D)
    rw [digestsOf_flatten H (subproof_length H C _ _ _ _)]
    exact rootsFromProof_subproof H C hm hmD le_rfl le_rfl fun _ => rfl⟩

end Verified

end CompactLog
