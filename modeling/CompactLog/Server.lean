import CompactLog.Reader

/-! The log server's proof calls on the writer's stores: every failure is one of its own
`BadRequest`s, never a wrapped storage error. -/

namespace CompactLog

namespace StorageBackedMerkleTree

variable (s : StorageBackedMerkleTree) {D : List Certificate} {st : Store}

theorem size_reachable (h : s.tree.Reachable D st) : Yields s.size (.ofStore st) D.length := by
  obtain ⟨⟨ext, rfl⟩, hD, -⟩ := h.storeInv
  exact Yields.liftTree (s.tree.len_yields treeStore_metaKey (by omega))

theorem proveInclusionEfficient_yields (h : s.tree.Reachable D st) {M i : Nat} (hi : i < M)
    (hM : M ≤ D.length) :
    Yields (s.proveInclusionEfficient M i) (.ofStore st)
      (InclusionProof.fromDigests (auditPath s.tree.hasher s.tree.codec i (D.take M))) := by
  have hsize := s.size_reachable h
  obtain ⟨⟨ext, rfl⟩, hD, -⟩ := h.storeInv
  simp only [proveInclusionEfficient, if_neg (Nat.not_le.mpr hi), pure_bind]
  refine hsize.bind ?_
  simp only [if_neg (Nat.not_lt.mpr hM), pure_bind]
  exact (Yields.liftTree (s.tree.proveInclusionAtSize_treeStore hD hi hM)).bind (Yields.pure _)

/-- On a reachable store over `D`, `prove_inclusion_efficient(M, i)` fails exactly on its two
argument checks, with their texts, and otherwise returns the RFC 6962 audit path of leaf `i` in
the tree of size `M`. -/
theorem proveInclusionEfficient_reachable (h : s.tree.Reachable D st) (M i : Nat) :
    (M ≤ i → Throws (s.proveInclusionEfficient M i) (.ofStore st)
      (.badRequest "Leaf index out of bounds for requested tree size")) ∧
    (i < M → D.length < M → Throws (s.proveInclusionEfficient M i) (.ofStore st)
      (.badRequest ("Requested tree size " ++ toString M ++ " exceeds current tree size " ++
        toString D.length))) ∧
    (i < M → M ≤ D.length → Yields (s.proveInclusionEfficient M i) (.ofStore st)
      (InclusionProof.fromDigests (auditPath s.tree.hasher s.tree.codec i (D.take M)))) := by
  refine ⟨fun hi => ?_, fun hi hM => ?_, fun hi hM => s.proveInclusionEfficient_yields h hi hM⟩
  · simp only [proveInclusionEfficient, if_pos hi]
    exact Throws.bind (Throws.throw _)
  · simp only [proveInclusionEfficient, if_neg (Nat.not_le.mpr hi), pure_bind]
    refine (s.size_reachable h).bind_throws ?_
    simp only [if_pos hM]
    exact Throws.bind (Throws.throw _)

theorem inclusionEfficient_past_two_certificates :
    toy.tree.Reachable [⟨[1]⟩, ⟨[2, 3]⟩] (toy.tree.batchStore [⟨[1]⟩, ⟨[2, 3]⟩]) ∧
    Throws (toy.proveInclusionEfficient 3 1) (.ofStore (toy.tree.batchStore [⟨[1]⟩, ⟨[2, 3]⟩]))
      (.badRequest ("Requested tree size " ++ toString 3 ++ " exceeds current tree size " ++
        toString 2)) :=
  have h := toy.tree.reachable_batchStore (D := [⟨[1]⟩, ⟨[2, 3]⟩]) (r := 0) rfl rfl
  ⟨h, (proveInclusionEfficient_reachable toy h 3 1).2.1 (by decide) (by decide)⟩

/-- On a reachable store over `D`, `consistency_proof_between_sizes(m, k)` fails exactly on its
four argument checks, with their texts. For `m = k` it returns the empty proof without reading the
size, so for every `k`, past the end too; otherwise it returns what the tree's
`prove_consistency_between(m, k)` reads, the hashes the proof's nodes have at the current size. -/
theorem consistencyProofBetweenSizes_reachable (h : s.tree.Reachable D st) (m k : Nat) :
    (k < m → Throws (s.consistencyProofBetweenSizes m k) (.ofStore st)
      (.badRequest "Old tree size cannot be larger than new tree size")) ∧
    Yields (s.consistencyProofBetweenSizes k k) (.ofStore st) (ConsistencyProof.fromDigests []) ∧
    (0 < k → Throws (s.consistencyProofBetweenSizes 0 k) (.ofStore st)
      (.badRequest "Cannot produce consistency proof starting from empty tree")) ∧
    (0 < m → m < k → D.length < m → Throws (s.consistencyProofBetweenSizes m k) (.ofStore st)
      (.badRequest ("Old tree size " ++ toString m ++ " exceeds current tree size " ++
        toString D.length))) ∧
    (0 < m → m ≤ D.length → D.length < k → Throws (s.consistencyProofBetweenSizes m k) (.ofStore st)
      (.badRequest ("New tree size " ++ toString k ++ " exceeds current tree size " ++
        toString D.length))) ∧
    (0 < m → m < k → k ≤ D.length → Yields (s.consistencyProofBetweenSizes m k) (.ofStore st)
      (ConsistencyProof.fromDigests ((indicesForConsistencyProof m (k - m)).map
        (nodeHash s.tree.hasher s.tree.codec D D.length)))) := by
  have hsize := s.size_reachable h
  obtain ⟨⟨ext, rfl⟩, hD, -⟩ := h.storeInv
  refine ⟨fun hmk => ?_, ?_, fun hk => ?_, fun hm hmk hD' => ?_, fun hm hmD hk => ?_,
    fun hm hmk hk => s.consistencyProofBetweenSizes_treeStore hD hm hmk hk⟩
  · simp only [consistencyProofBetweenSizes, if_pos hmk]
    exact Throws.bind (Throws.throw _)
  · simp only [consistencyProofBetweenSizes, lt_irrefl, if_false, if_true, pure_bind]
    exact Yields.pure _
  · simp only [consistencyProofBetweenSizes, show ¬ 0 > k by omega, show ¬ 0 = k by omega,
      if_false, if_true, pure_bind]
    exact Throws.bind (Throws.throw _)
  · simp only [consistencyProofBetweenSizes, show ¬ m > k by omega, show ¬ m = k by omega,
      show ¬ m = 0 by omega, if_false, pure_bind]
    refine hsize.bind_throws ?_
    simp only [if_pos hD']
    exact Throws.bind (Throws.throw _)
  · simp only [consistencyProofBetweenSizes, show ¬ m > k by omega, show ¬ m = k by omega,
      show ¬ m = 0 by omega, if_false, pure_bind]
    refine hsize.bind_throws ?_
    simp only [show ¬ m > D.length by omega, if_pos hk, if_false, pure_bind]
    exact Throws.bind (Throws.throw _)

theorem consistencyBetween_five_five_on_two :
    toy.tree.Reachable [⟨[1]⟩, ⟨[2, 3]⟩] (toy.tree.batchStore [⟨[1]⟩, ⟨[2, 3]⟩]) ∧
    Yields (toy.consistencyProofBetweenSizes 5 5) (.ofStore (toy.tree.batchStore [⟨[1]⟩, ⟨[2, 3]⟩]))
      (ConsistencyProof.fromDigests []) :=
  have h := toy.tree.reachable_batchStore (D := [⟨[1]⟩, ⟨[2, 3]⟩]) (r := 0) rfl rfl
  ⟨h, (consistencyProofBetweenSizes_reachable toy h 0 5).2.1⟩

end StorageBackedMerkleTree

end CompactLog
