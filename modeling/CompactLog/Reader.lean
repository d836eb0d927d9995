import CompactLog.Writer
import CompactLog.Rfc6962
import CompactLog.Storage

/-! The readers on the writer's stores: the inclusion proofs at every size and the consistency
proof at the current size are RFC 6962's; `prove_consistency_between` reads current entries. -/

namespace CompactLog

section Store

variable {T : Type} (H : Hasher) (C : LeafCodec T) {F : List T} (ext : Store)

theorem treeStore_atVersion {M x : Nat} (hF : F.length ≤ 2 ^ 63) (hM : 1 ≤ M)
    (hMF : M ≤ F.length) (hx : x + 2 ≤ 2 * M) :
    treeStore H C F ext (versionedNodeKey x M) =
      (if x ∈ walk M then some (nodeHash H C F M x) else none) ∧
    (x ∉ walk M → (leafRange x).2 < M ∧
      treeStore H C F ext (nodeKey x) = some (nodeHash H C F M x)) := by
  refine ⟨?_, fun hw => ⟨leafRange_lt_of_not_mem_walk hx hw, ?_⟩⟩
  · rw [treeStore_versionedNodeKey (by omega) (by omega)]
    simp only [hM, hMF, true_and]
  · have hl := leafRange_lt_of_not_mem_walk hx hw
    rw [treeStore_nodeKey (by omega), if_pos (by omega)]
    simp only [nodeHash, truncRange, Nat.min_eq_left (by omega : (leafRange x).2 ≤ F.length),
      Nat.min_eq_left hl.le]

end Store

namespace SlateDbBackedTree

variable {T : Type} (t : SlateDbBackedTree T) {F : List T} {ext : Store}

theorem getNodeHash_treeStore {x : Nat} (hF : F.length ≤ 2 ^ 63) (hx : x + 2 ≤ 2 * F.length) :
    Yields (t.getNodeHash x) (.ofStore (treeStore t.hasher t.codec F ext))
      (nodeHash t.hasher t.codec F F.length x) :=
  t.getNodeHash_yields (by rw [treeStore_nodeKey (by omega), if_pos hx]) (mth_length _)

theorem getNodeHashAtVersion_treeStore {M x : Nat} (hF : F.length ≤ 2 ^ 63) (hM : 1 ≤ M)
    (hMF : M ≤ F.length) (hx : x + 2 ≤ 2 * M) :
    Yields (t.getNodeHashAtVersion x M) (.ofStore (treeStore t.hasher t.codec F ext))
      (nodeHash t.hasher t.codec F M x) := by
  obtain ⟨hv, hc⟩ := treeStore_atVersion t.hasher t.codec ext hF hM hMF hx
  by_cases hw : x ∈ walk M
  · exact t.getNodeHashAtVersion_yields_versioned (by rw [hv, if_pos hw]) (mth_length _)
  · rw [if_neg hw] at hv
    exact t.getNodeHashAtVersion_yields_current hv (hc hw).2 (mth_length _)

theorem proveInclusionAtSize_treeStore {i M : Nat} (hF : F.length ≤ 2 ^ 63) (hi : i < M)
    (hM : M ≤ F.length) :
    Yields (t.proveInclusionAtSize i M) (.ofStore (treeStore t.hasher t.codec F ext))
      (InclusionProof.fromDigests (auditPath t.hasher t.codec i (F.take M))) := by
  refine (t.len_yields treeStore_metaKey (by omega)).bind ?_
  simp only [show ¬ M > F.length by omega, show ¬ i ≥ M by omega, if_false, pure_bind]
  rw [← inclusionProof_hashes t.hasher t.codec hi hM]
  exact (Yields.mapM _ fun x hx => t.getNodeHashAtVersion_treeStore hF (by omega) hM
    (lt_of_mem_indicesForInclusionProof hi hx)).bind (Yields.pure _)

theorem proveInclusion_treeStore {i : Nat} (hF : F.length ≤ 2 ^ 63) (hi : i < F.length) :
    Yields (t.proveInclusion i) (.ofStore (treeStore t.hasher t.codec F ext))
      (InclusionProof.fromDigests (auditPath t.hasher t.codec i F)) := by
  refine (t.len_yields treeStore_metaKey (by omega)).bind ?_
  simp only [show ¬ i ≥ F.length by omega, if_false, pure_bind]
  have e := inclusionProof_hashes t.hasher t.codec hi (le_refl F.length)
  rw [List.take_length] at e
  rw [← e]
  exact (Yields.mapM _ fun x hx => t.getNodeHash_treeStore hF
    (lt_of_mem_indicesForInclusionProof hi hx)).bind (Yields.pure _)

theorem proveConsistency_treeStore {m : Nat} (hF : F.length ≤ 2 ^ 63) (hm : 0 < m)
    (hmF : m < F.length) :
    Yields (t.proveConsistency m) (.ofStore (treeStore t.hasher t.codec F ext))
      (ConsistencyProof.fromDigests (consistencyPath t.hasher t.codec m F)) := by
  refine (t.len_yields treeStore_metaKey (by omega)).bind ?_
  simp only [show ¬ m = 0 by omega, show ¬ m ≥ F.length by omega, if_false, pure_bind]
  have e := consistencyProof_hashes t.hasher t.codec hm hmF.le (le_refl F.length)
  rw [List.take_length] at e
  rw [← e]
  exact (Yields.mapM _ fun x hx => t.getNodeHash_treeStore hF
    (lt_of_mem_indicesForConsistencyProof hm hmF.le hx)).bind (Yields.pure _)

theorem proveConsistencyBetween_treeStore {m k : Nat} (hF : F.length ≤ 2 ^ 63) (hm : 0 < m)
    (hmk : m < k) (hk : k ≤ F.length) :
    Yields (t.proveConsistencyBetween m k) (.ofStore (treeStore t.hasher t.codec F ext))
      (ConsistencyProof.fromDigests
        ((indicesForConsistencyProof m (k - m)).map (nodeHash t.hasher t.codec F F.length))) := by
  simp only [proveConsistencyBetween, show ¬ m = 0 by omega, show ¬ m > k by omega,
    show ¬ m = k by omega, if_false, pure_bind]
  refine (t.len_yields treeStore_metaKey (by omega)).bind ?_
  simp only [show ¬ k > F.length by omega, if_false, pure_bind]
  exact (Yields.mapM _ fun x hx => t.getNodeHash_treeStore hF
    (by have := lt_of_mem_indicesForConsistencyProof hm hmk.le hx; omega)).bind (Yields.pure _)

/-- On a reachable store, the hash of node `x` at a past size `M` comes from its versioned entry
when `x` is on the walk of size `M`, and otherwise from its current entry, which still holds the
hash at size `M`. Either way it is `MTH` of the leaves of `x` cut at `M`. -/
theorem nodeHashAtVersion_reachable {D : List T} {s : Store} (h : t.Reachable D s) {M x : Nat}
    (hM : 1 ≤ M) (hMN : M ≤ D.length) (hx : x + 2 ≤ 2 * M) :
    Yields (t.getNodeHashAtVersion x M) (.ofStore s)
      (mth t.hasher t.codec (slice D (truncRange x M).1 (truncRange x M).2)) ∧
    (x ∈ walk M → s (versionedNodeKey x M) =
      some (mth t.hasher t.codec (slice D (truncRange x M).1 (truncRange x M).2))) ∧
    (x ∉ walk M → s (versionedNodeKey x M) = none ∧ (leafRange x).2 < M ∧
      s (nodeKey x) = some (mth t.hasher t.codec (slice D (truncRange x M).1 (truncRange x M).2))) := by
  obtain ⟨⟨ext, rfl⟩, hD, -⟩ := h.storeInv
  obtain ⟨hv, hc⟩ := treeStore_atVersion t.hasher t.codec ext hD hM hMN hx
  exact ⟨t.getNodeHashAtVersion_treeStore hD hM hMN hx, fun hw => by rw [hv, if_pos hw]; rfl,
    fun hw => ⟨by rw [hv, if_neg hw], hc hw⟩⟩

theorem nodeHashAtVersion_leaf_at_two : toy.Reachable [1, 2, 3] (toy.batchStore [1, 2, 3]) ∧
    1 ≤ 2 ∧ 2 ≤ [1, 2, 3].length ∧ 0 + 2 ≤ 2 * 2 ∧ 0 ∉ walk 2 ∧
    toy.batchStore [1, 2, 3] (nodeKey 0) =
      some (mth toy.hasher toy.codec (slice [1, 2, 3] (truncRange 0 2).1 (truncRange 0 2).2)) :=
  have h : toy.Reachable [1, 2, 3] (toy.batchStore [1, 2, 3]) := toy.reachable_batchStore rfl rfl
  have hw : 0 ∉ walk 2 := by decide
  ⟨h, by decide, by decide, by decide, hw,
    ((nodeHashAtVersion_reachable toy h (by decide) (by decide) (by decide)).2.2 hw).2.2⟩

/-- On a reachable store over `D`, `prove_inclusion_at_size(i, M)` returns RFC 6962's audit path
of leaf `i` over the first `M` items, which verifies `D[i]` against the root of size `M`; and
`prove_inclusion(j)` returns what `prove_inclusion_at_size(j, |D|)` returns. -/
theorem inclusionProofs_reachable {D : List T} {s : Store} (h : t.Reachable D s) {i M : Nat}
    (hi : i < M) (hM : M ≤ D.length) :
    Yields (t.proveInclusionAtSize i M) (.ofStore s)
      (InclusionProof.fromDigests (auditPath t.hasher t.codec i (D.take M))) ∧
    RootHash.VerifiesInclusion t.hasher t.codec ⟨mth t.hasher t.codec (D.take M), M⟩ D[i] i
      (InclusionProof.fromDigests (auditPath t.hasher t.codec i (D.take M))) ∧
    ∀ j < D.length, (t.proveInclusion j).run.run (.ofStore s) =
      (t.proveInclusionAtSize j D.length).run.run (.ofStore s) := by
  obtain ⟨⟨ext, rfl⟩, hD, -⟩ := h.storeInv
  refine ⟨t.proveInclusionAtSize_treeStore hD hi hM, ?_, fun j hj => ?_⟩
  · exact auditPath_verifies t.hasher t.codec (by simp; omega)
      (by rw [List.getElem?_take_of_lt hi, List.getElem?_eq_getElem])
  · have h₁ : Yields (t.proveInclusion j) (.ofStore (treeStore t.hasher t.codec D ext)) _ :=
      t.proveInclusion_treeStore hD hj
    have h₂ : Yields (t.proveInclusionAtSize j D.length)
        (.ofStore (treeStore t.hasher t.codec D ext)) _ :=
      t.proveInclusionAtSize_treeStore hD hj le_rfl
    rw [List.take_length] at h₂
    exact Eq.trans h₁ (Eq.symm h₂)

theorem inclusionProofs_first_of_two : toy.Reachable [1, 2, 3] (toy.batchStore [1, 2, 3]) ∧
    0 < 2 ∧ 2 ≤ [1, 2, 3].length ∧
    Yields (toy.proveInclusionAtSize 0 2) (.ofStore (toy.batchStore [1, 2, 3]))
      (InclusionProof.fromDigests (auditPath toy.hasher toy.codec 0 ([1, 2, 3].take 2))) :=
  have h : toy.Reachable [1, 2, 3] (toy.batchStore [1, 2, 3]) := toy.reachable_batchStore rfl rfl
  ⟨h, by decide, by decide, (inclusionProofs_reachable toy h (by decide) (by decide)).1⟩

/-- On a reachable store over `D`, `prove_consistency(m)` returns RFC 6962's `PROOF(m, D)`, which
verifies the root of the first `m` items against what `root` returns. -/
theorem proveConsistency_reachable {D : List T} {s : Store} (h : t.Reachable D s) {m : Nat}
    (hm : 0 < m) (hmN : m < D.length) :
    Yields (t.proveConsistency m) (.ofStore s)
      (ConsistencyProof.fromDigests (consistencyPath t.hasher t.codec m D)) ∧
    Yields t.root (.ofStore s) ⟨mth t.hasher t.codec D, D.length⟩ ∧
    RootHash.VerifiesConsistency t.hasher ⟨mth t.hasher t.codec (D.take m), m⟩
      ⟨mth t.hasher t.codec D, D.length⟩
      (ConsistencyProof.fromDigests (consistencyPath t.hasher t.codec m D)) := by
  obtain ⟨⟨ext, rfl⟩, hD, -⟩ := h.storeInv
  exact ⟨t.proveConsistency_treeStore hD hm hmN, t.root_yields hD,
    consistencyPath_verifies t.hasher t.codec hm hmN.le⟩

theorem proveConsistency_one_of_three : toy.Reachable [1, 2, 3] (toy.batchStore [1, 2, 3]) ∧
    0 < 1 ∧ 1 < [1, 2, 3].length ∧
    Yields (toy.proveConsistency 1) (.ofStore (toy.batchStore [1, 2, 3]))
      (ConsistencyProof.fromDigests (consistencyPath toy.hasher toy.codec 1 [1, 2, 3])) :=
  have h : toy.Reachable [1, 2, 3] (toy.batchStore [1, 2, 3]) := toy.reachable_batchStore rfl rfl
  ⟨h, by decide, by decide, (proveConsistency_reachable toy h (by decide) (by decide)).1⟩

/-- On a reachable store, `get(i)` returns item `i` of the items appended, and `None` past the
end, for a codec that decodes what it encodes. -/
theorem get_reachable {D : List T} {s : Store} (h : t.Reachable D s)
    (hcodec : ∀ d ∈ D, ∀ bytes, t.codec.serialize d = .ok bytes → t.codec.deserialize bytes = .ok d)
    {i : Nat} (hi : i < 2 ^ 64) : Yields (t.get i) (.ofStore s) D[i]? := by
  obtain ⟨⟨ext, rfl⟩, -, hser⟩ := h.storeInv
  unfold get
  refine (t.db.get_yields _).bind ?_
  rw [treeStore_leafKey hi]
  rcases hD : D[i]? with _ | d
  · exact Yields.pure _
  · obtain ⟨bytes, hb⟩ := hser d (List.getElem?_mem hD)
    simp only [Option.some_bind, hb, Except.toOption, hcodec d (List.getElem?_mem hD) bytes hb]
    exact Yields.pure _

theorem get_second_certificate :
    StorageBackedMerkleTree.toy.tree.Reachable [⟨[1]⟩, ⟨[2, 3]⟩]
        (StorageBackedMerkleTree.toy.tree.batchStore [⟨[1]⟩, ⟨[2, 3]⟩]) ∧
      (∀ d ∈ ([⟨[1]⟩, ⟨[2, 3]⟩] : List Certificate), ∀ bytes,
        StorageBackedMerkleTree.toy.tree.codec.serialize d = .ok bytes →
          StorageBackedMerkleTree.toy.tree.codec.deserialize bytes = .ok d) ∧ 1 < 2 ^ 64 ∧
      Yields (StorageBackedMerkleTree.toy.tree.get 1)
        (.ofStore (StorageBackedMerkleTree.toy.tree.batchStore [⟨[1]⟩, ⟨[2, 3]⟩]))
        ([⟨[1]⟩, ⟨[2, 3]⟩] : List Certificate)[1]? :=
  have h := StorageBackedMerkleTree.toy.tree.reachable_batchStore
    (D := [⟨[1]⟩, ⟨[2, 3]⟩]) (r := 0) rfl rfl
  have hc : ∀ d ∈ ([⟨[1]⟩, ⟨[2, 3]⟩] : List Certificate), ∀ bytes,
      StorageBackedMerkleTree.toy.tree.codec.serialize d = .ok bytes →
        StorageBackedMerkleTree.toy.tree.codec.deserialize bytes = .ok d := fun d hd bytes hb => by
    simp only [List.mem_cons, List.mem_singleton, List.not_mem_nil, or_false] at hd
    rcases hd with rfl | rfl <;> exact certificate_decodes (by decide) hb
  ⟨h, hc, by decide, get_reachable _ h hc (by decide)⟩

/-- On a reachable store over `D`, the proof calls fail exactly on their argument checks, with the
source's texts, and never with a storage error: on every other argument they yield their proof.
`prove_consistency_between(m, m)` returns the empty proof without reading the store. -/
theorem proof_errors_reachable {D : List T} {s : Store} (h : t.Reachable D s) (i M m k : Nat) :
    (D.length ≤ i → Throws (t.proveInclusion i) (.ofStore s)
      (.inconsistentState ("Index " ++ toString i ++ " out of bounds (tree has " ++
        toString D.length ++ " leaves)"))) ∧
    (i < D.length → Yields (t.proveInclusion i) (.ofStore s)
      (InclusionProof.fromDigests (auditPath t.hasher t.codec i D))) ∧
    (D.length < M → Throws (t.proveInclusionAtSize i M) (.ofStore s)
      (.inconsistentState ("Requested tree size " ++ toString M ++ " exceeds current tree size " ++
        toString D.length))) ∧
    (M ≤ D.length → M ≤ i → Throws (t.proveInclusionAtSize i M) (.ofStore s)
      (.inconsistentState ("Index " ++ toString i ++ " out of bounds for requested tree size " ++
        toString M))) ∧
    (i < M → M ≤ D.length → Yields (t.proveInclusionAtSize i M) (.ofStore s)
      (InclusionProof.fromDigests (auditPath t.hasher t.codec i (D.take M)))) ∧
    Throws (t.proveConsistency 0) (.ofStore s)
      (.inconsistentState "Cannot create consistency proof from empty tree") ∧
    (0 < m → D.length ≤ m → Throws (t.proveConsistency m) (.ofStore s)
      (.inconsistentState ("Old size " ++ toString m ++ " must be less than current size " ++
        toString D.length))) ∧
    (0 < m → m < D.length → Yields (t.proveConsistency m) (.ofStore s)
      (ConsistencyProof.fromDigests (consistencyPath t.hasher t.codec m D))) ∧
    Throws (t.proveConsistencyBetween 0 k) (.ofStore s)
      (.inconsistentState "Cannot create consistency proof from empty tree") ∧
    (0 < m → k < m → Throws (t.proveConsistencyBetween m k) (.ofStore s)
      (.inconsistentState ("Old size " ++ toString m ++ " must be less than or equal to new size " ++
        toString k))) ∧
    (0 < m → Yields (t.proveConsistencyBetween m m) (.ofStore s) (ConsistencyProof.fromDigests [])) ∧
    (0 < m → m < k → D.length < k → Throws (t.proveConsistencyBetween m k) (.ofStore s)
      (.inconsistentState ("New size " ++ toString k ++ " exceeds current tree size " ++
        toString D.length))) ∧
    (0 < m → m < k → k ≤ D.length → Yields (t.proveConsistencyBetween m k) (.ofStore s)
      (ConsistencyProof.fromDigests
        ((indicesForConsistencyProof m (k - m)).map (nodeHash t.hasher t.codec D D.length)))) := by
  obtain ⟨⟨ext, rfl⟩, hD, -⟩ := h.storeInv
  have hlen : Yields t.len (.ofStore (treeStore t.hasher t.codec D ext)) D.length :=
    t.len_yields treeStore_metaKey (by omega)
  refine ⟨fun hi => ?_, fun hi => t.proveInclusion_treeStore hD hi, fun hM => ?_, fun hM hi => ?_,
    fun hi hM => t.proveInclusionAtSize_treeStore hD hi hM, ?_, fun hm hmD => ?_,
    fun hm hmD => t.proveConsistency_treeStore hD hm hmD, ?_, fun hm hkm => ?_, fun hm => ?_,
    fun hm hmk hk => ?_, fun hm hmk hk => t.proveConsistencyBetween_treeStore hD hm hmk hk⟩
  · refine hlen.bind_throws ?_
    simp only [if_pos hi]
    exact Throws.bind (Throws.throw _)
  · refine hlen.bind_throws ?_
    simp only [if_pos hM]
    exact Throws.bind (Throws.throw _)
  · refine hlen.bind_throws ?_
    simp only [show ¬ M > D.length by omega, if_pos hi, if_false, pure_bind]
    exact Throws.bind (Throws.throw _)
  · refine hlen.bind_throws ?_
    simp only [if_true]
    exact Throws.bind (Throws.throw _)
  · refine hlen.bind_throws ?_
    simp only [show ¬ m = 0 by omega, if_pos hmD, if_false, pure_bind]
    exact Throws.bind (Throws.throw _)
  · simp only [proveConsistencyBetween, if_true]
    exact Throws.bind (Throws.throw _)
  · simp only [proveConsistencyBetween, show ¬ m = 0 by omega, if_pos hkm, if_false, pure_bind]
    exact Throws.bind (Throws.throw _)
  · simp only [proveConsistencyBetween, show ¬ m = 0 by omega, lt_irrefl, if_true, if_false,
      pure_bind]
    exact Yields.pure _
  · simp only [proveConsistencyBetween, show ¬ m = 0 by omega, show ¬ m > k by omega,
      show ¬ m = k by omega, if_false, pure_bind]
    refine hlen.bind_throws ?_
    simp only [if_pos hk]
    exact Throws.bind (Throws.throw _)

theorem proofs_fail_past_three :
    toy.Reachable [1, 2, 3] (toy.batchStore [1, 2, 3]) ∧
    Throws (toy.proveInclusion 3) (.ofStore (toy.batchStore [1, 2, 3]))
      (.inconsistentState ("Index " ++ toString 3 ++ " out of bounds (tree has " ++
        toString [1, 2, 3].length ++ " leaves)")) ∧
    Throws (toy.proveConsistency 3) (.ofStore (toy.batchStore [1, 2, 3]))
      (.inconsistentState ("Old size " ++ toString 3 ++ " must be less than current size " ++
        toString [1, 2, 3].length)) :=
  have h : toy.Reachable [1, 2, 3] (toy.batchStore [1, 2, 3]) := toy.reachable_batchStore rfl rfl
  ⟨h, (proof_errors_reachable toy h 3 0 3 0).1 (by decide),
    (proof_errors_reachable toy h 3 0 3 0).2.2.2.2.2.2.1 (by decide) (by decide)⟩

end SlateDbBackedTree

theorem StorageBackedMerkleTree.consistencyProofBetweenSizes_treeStore (s : StorageBackedMerkleTree)
    {F : List Certificate} {ext : Store} {m k : Nat} (hF : F.length ≤ 2 ^ 63) (hm : 0 < m)
    (hmk : m < k) (hk : k ≤ F.length) :
    Yields (s.consistencyProofBetweenSizes m k)
      (.ofStore (treeStore s.tree.hasher s.tree.codec F ext))
      (ConsistencyProof.fromDigests ((indicesForConsistencyProof m (k - m)).map
        (nodeHash s.tree.hasher s.tree.codec F F.length))) := by
  simp only [consistencyProofBetweenSizes, show ¬ m > k by omega, show ¬ m = k by omega,
    show ¬ m = 0 by omega, if_false, pure_bind]
  refine (Yields.liftTree (s.tree.len_yields treeStore_metaKey (by omega))).bind ?_
  simp only [show ¬ m > F.length by omega, show ¬ k > F.length by omega, if_false, pure_bind]
  exact (Yields.liftTree (s.tree.proveConsistencyBetween_treeStore hF hm hmk hk)).bind
    (Yields.pure _)

namespace SlateDbBackedTree

def eightItems : List Nat := List.range 8

def eightCertificates : List Certificate := eightItems.map fun k => ⟨[UInt8.ofNat k]⟩

/-- On the store of eight items, `prove_consistency_between(4, 7)` returns the current hash of
node `11`, over the leaves `4..8`, where RFC 6962's `PROOF(4, D[0:7])` holds the hash of the leaves
`4..7`. The proof returned does not verify, RFC 6962's does, and the server's
`consistency_proof_between_sizes(4, 7)` returns the same wrong hash. -/
theorem consistencyBetween_reads_current_node :
    toy.Reachable eightItems (toy.batchStore eightItems) ∧
    Yields (toy.proveConsistencyBetween 4 7) (.ofStore (toy.batchStore eightItems))
      (ConsistencyProof.fromDigests [mth toy.hasher toy.codec (slice eightItems 4 8)]) ∧
    consistencyPath toy.hasher toy.codec 4 (eightItems.take 7) =
      [mth toy.hasher toy.codec (slice eightItems 4 7)] ∧
    ¬ RootHash.VerifiesConsistency toy.hasher ⟨mth toy.hasher toy.codec (eightItems.take 4), 4⟩
      ⟨mth toy.hasher toy.codec (eightItems.take 7), 7⟩
      (ConsistencyProof.fromDigests [mth toy.hasher toy.codec (slice eightItems 4 8)]) ∧
    RootHash.VerifiesConsistency toy.hasher ⟨mth toy.hasher toy.codec (eightItems.take 4), 4⟩
      ⟨mth toy.hasher toy.codec (eightItems.take 7), 7⟩
      (ConsistencyProof.fromDigests (consistencyPath toy.hasher toy.codec 4 (eightItems.take 7))) ∧
    StorageBackedMerkleTree.toy.tree.Reachable eightCertificates
      (StorageBackedMerkleTree.toy.tree.batchStore eightCertificates) ∧
    Yields (StorageBackedMerkleTree.toy.consistencyProofBetweenSizes 4 7)
      (.ofStore (StorageBackedMerkleTree.toy.tree.batchStore eightCertificates))
      (ConsistencyProof.fromDigests [mth toy.hasher .certificate (slice eightCertificates 4 8)]) := by
  have h : toy.Reachable eightItems (toy.batchStore eightItems) := toy.reachable_batchStore (r := 0) rfl rfl
  have hc : StorageBackedMerkleTree.toy.tree.Reachable eightCertificates
      (StorageBackedMerkleTree.toy.tree.batchStore eightCertificates) :=
    StorageBackedMerkleTree.toy.tree.reachable_batchStore (r := 0) rfl rfl
  obtain ⟨⟨ext, he⟩, hD, -⟩ := h.storeInv
  obtain ⟨⟨ext', he'⟩, hD', -⟩ := hc.storeInv
  have e : (indicesForConsistencyProof 4 (7 - 4)).map (nodeHash toy.hasher toy.codec eightItems 8) =
      [mth toy.hasher toy.codec (slice eightItems 4 8)] := by decide
  have e' : (indicesForConsistencyProof 4 (7 - 4)).map
      (nodeHash toy.hasher .certificate eightCertificates 8) =
      [mth toy.hasher .certificate (slice eightCertificates 4 8)] := by decide
  refine ⟨h, ?_, by decide, by decide, by decide, hc, ?_⟩
  · rw [he]
    exact e ▸ toy.proveConsistencyBetween_treeStore hD (by decide) (by decide) (by decide)
  · rw [he']
    exact e' ▸ StorageBackedMerkleTree.toy.consistencyProofBetweenSizes_treeStore hD' (by decide)
      (by decide) (by decide)

end SlateDbBackedTree

end CompactLog
