import CompactLog.Reader

/-! One reader against one writer, each read served by a committed state no older than the last:
the versioned reads stay at their size, the current-entry reads mix sizes. -/

namespace CompactLog

section Reads

variable {view : Nat → Bytes → Except DbError (Option Bytes)} {n : Nat}

theorem DbHandle.get_readsTo (d : DbHandle) (key : Bytes) :
    ReadsTo (d.get key) view n fun r n' => view n key = .ok r ∧ n' = n + 1 := by
  intro r n' h
  change (Io.pure ((view n key).mapError SlateDbTreeError.dbError)).runReads view (n + 1) = _ at h
  rcases e : view n key with _ | v <;> rw [e] at h <;> cases h
  exact ⟨rfl, rfl⟩

theorem DbHandle.get_readsYield (d : DbHandle) {key : Bytes} {r : Option Bytes}
    (h : view n key = .ok r) : ReadsYield (d.get key) view n r (n + 1) := by
  change (Io.pure ((view n key).mapError SlateDbTreeError.dbError)).runReads view (n + 1) = _
  rw [h]
  rfl

namespace SlateDbBackedTree

variable {T : Type} (t : SlateDbBackedTree T)

theorem readHash_readsTo (bytes : Bytes) :
    ReadsTo (t.readHash bytes) view n fun h n' => h = bytes ∧ n' = n := by
  unfold readHash
  split
  · exact ReadsTo.pure ⟨rfl, rfl⟩
  · exact ReadsTo.throw _

theorem getNodeHash_readsTo (x : Nat) :
    ReadsTo (t.getNodeHash x) view n fun h n' =>
      view n (nodeKey x) = .ok (some h) ∧ n' = n + 1 := by
  refine (t.db.get_readsTo _).bind fun r n₁ ⟨hr, hn₁⟩ => ?_
  rcases r with _ | bytes
  · exact ReadsTo.throw _
  · exact (t.readHash_readsTo bytes).mono fun h n' ⟨e₁, e₂⟩ => by subst e₁ e₂; exact ⟨hr, hn₁⟩

theorem getNodeHashAtVersion_readsTo (x M : Nat) :
    ReadsTo (t.getNodeHashAtVersion x M) view n fun h n' =>
      (view n (versionedNodeKey x M) = .ok (some h) ∧ n' = n + 1) ∨
      (view n (versionedNodeKey x M) = .ok none ∧ view (n + 1) (nodeKey x) = .ok (some h) ∧
        n' = n + 2) := by
  refine (t.db.get_readsTo _).bind fun r n₁ ⟨hr, hn₁⟩ => ?_
  subst hn₁
  rcases r with _ | bytes
  · exact (t.getNodeHash_readsTo x).mono fun h n' ⟨e₁, e₂⟩ => .inr ⟨hr, e₁, e₂⟩
  · exact (t.readHash_readsTo bytes).mono fun h n' ⟨e₁, e₂⟩ => by
      subst e₁ e₂; exact .inl ⟨hr, rfl⟩

theorem len_readsTo :
    ReadsTo t.len view n fun N n' => n' = n + 1 ∧
      (view n metaKey = .ok none ∧ N = 0 ∨
        ∃ bytes, view n metaKey = .ok (some bytes) ∧ bytes.length = 8 ∧ N = fromBe bytes) := by
  have : ReadsTo t.getNumLeaves view n fun r n' => n' = n + 1 ∧
      (view n metaKey = .ok none ∧ r = none ∨
        ∃ bytes, view n metaKey = .ok (some bytes) ∧ bytes.length = 8 ∧ r = some (fromBe bytes)) := by
    refine (t.db.get_readsTo _).bind fun r n₁ ⟨hr, hn₁⟩ => ?_
    rcases r with _ | bytes
    · exact ReadsTo.pure ⟨hn₁, .inl ⟨hr, rfl⟩⟩
    · simp only
      split
      · exact ReadsTo.pure ⟨hn₁, .inr ⟨bytes, hr, ‹_›, rfl⟩⟩
      · exact ReadsTo.throw _
  refine this.bind fun r n' ⟨hn', hr⟩ => ReadsTo.pure ⟨hn', ?_⟩
  rcases hr with ⟨h, rfl⟩ | ⟨bytes, h, hl, rfl⟩
  exacts [.inl ⟨h, rfl⟩, .inr ⟨bytes, h, hl, rfl⟩]

theorem readHash_readsYield {bytes : Bytes} (h : bytes.length = t.hasher.outputSize) :
    ReadsYield (t.readHash bytes) view n bytes n := by
  simp only [readHash, h, if_true]
  exact ReadsYield.pure _

theorem getNodeHash_readsYield {x : Nat} {hash : Bytes} (h : view n (nodeKey x) = .ok (some hash))
    (hl : hash.length = t.hasher.outputSize) : ReadsYield (t.getNodeHash x) view n hash (n + 1) :=
  (t.db.get_readsYield h).bind (t.readHash_readsYield hl)

theorem getNodeHashAtVersion_readsYield_versioned {x M : Nat} {hash : Bytes}
    (h : view n (versionedNodeKey x M) = .ok (some hash)) (hl : hash.length = t.hasher.outputSize) :
    ReadsYield (t.getNodeHashAtVersion x M) view n hash (n + 1) :=
  (t.db.get_readsYield h).bind (t.readHash_readsYield hl)

theorem getNodeHashAtVersion_readsYield_current {x M : Nat} {hash : Bytes}
    (h : view n (versionedNodeKey x M) = .ok none) (h' : view (n + 1) (nodeKey x) = .ok (some hash))
    (hl : hash.length = t.hasher.outputSize) :
    ReadsYield (t.getNodeHashAtVersion x M) view n hash (n + 2) :=
  (t.db.get_readsYield h).bind (t.getNodeHash_readsYield h' hl)

theorem len_readsYield {N : Nat} (h : view n metaKey = .ok (some (be64 N))) (hN : N < 2 ^ 64) :
    ReadsYield t.len view n N (n + 1) := by
  have : ReadsYield t.getNumLeaves view n (some N) (n + 1) := by
    refine (t.db.get_readsYield h).bind ?_
    simp only [be64_length, if_true, fromBe_be64, Nat.mod_eq_of_lt hN]
    exact ReadsYield.pure _
  exact this.bind (ReadsYield.pure _)

end SlateDbBackedTree

end Reads

namespace SlateDbBackedTree

variable {T : Type} (t : SlateDbBackedTree T)

/-- The reads of one reader while `t` appends the items `D`: the `n`-th read is served by
`backend n`, a state the writer committed, holding the first `size n` items. No read is served by
a state older than the one that served the read before it. -/
structure Schedule (D : List T) where
  backend : Nat → Backend
  size : Nat → Nat
  reachable : ∀ n, t.Reachable (D.take (size n)) (backend n).kv
  size_le_succ : ∀ n, size n ≤ size (n + 1)

variable {t} {D : List T} (σ : t.Schedule D)

def Schedule.view (n : Nat) (key : Bytes) : Except DbError (Option Bytes) := (σ.backend n).read key

def Schedule.len (n : Nat) : Nat := (D.take (σ.size n)).length

theorem Schedule.len_mono {n m : Nat} (h : n ≤ m) : σ.len n ≤ σ.len m := by
  have := monotone_nat_of_le_succ σ.size_le_succ h
  simp only [Schedule.len, List.length_take]
  omega

theorem Schedule.len_le_size (n : Nat) : σ.len n ≤ σ.size n := List.length_take_le _ _

theorem Schedule.len_le_length (n : Nat) : σ.len n ≤ D.length := List.length_take_le' _ _

theorem Schedule.store (n : Nat) : ∃ ext, (σ.backend n).kv =
    treeStore t.hasher t.codec (D.take (σ.size n)) ext ∧ σ.len n ≤ 2 ^ 63 :=
  have ⟨⟨ext, he⟩, hD, _⟩ := (σ.reachable n).storeInv
  ⟨ext, he, hD⟩

theorem Schedule.len_le_half (n : Nat) : σ.len n ≤ 2 ^ 63 := (σ.reachable n).storeInv.length_le

theorem Schedule.view_ok {n : Nat} {key : Bytes} {r : Option Bytes}
    (h : σ.view n key = .ok r) : (σ.backend n).kv key = r := by
  unfold Schedule.view Backend.read at h
  split at h <;> cases h
  rfl

theorem Schedule.view_eq {n : Nat} {key : Bytes} (h : (σ.backend n).readFault key = none) :
    σ.view n key = .ok ((σ.backend n).kv key) := by
  simp only [Schedule.view, Backend.read, h]

theorem Schedule.meta_entry (n : Nat) : (σ.backend n).kv metaKey = some (be64 (σ.len n)) := by
  obtain ⟨ext, he, -⟩ := σ.store n
  rw [he, treeStore_metaKey]
  rfl

theorem Schedule.node_entry {n x : Nat} (hx : x + 2 ≤ 2 * σ.len n) :
    (σ.backend n).kv (nodeKey x) = some (nodeHash t.hasher t.codec D (σ.len n) x) := by
  obtain ⟨ext, he, hD⟩ := σ.store n
  rw [he, treeStore_nodeKey (by omega), ← nodeHash_take (σ.len_le_size n)]
  exact if_pos hx

theorem Schedule.versioned_entry {n M x : Nat} (hM : 1 ≤ M) (hMn : M ≤ σ.len n)
    (hx : x + 2 ≤ 2 * M) : (σ.backend n).kv (versionedNodeKey x M) =
      if x ∈ walk M then some (nodeHash t.hasher t.codec D M x) else none := by
  obtain ⟨ext, he, hD⟩ := σ.store n
  rw [he, (treeStore_atVersion t.hasher t.codec ext hD hM hMn hx).1,
    nodeHash_take (hMn.trans (σ.len_le_size n))]

theorem Schedule.current_entry {n M x : Nat} (hM : 1 ≤ M) (hMn : M ≤ σ.len n)
    (hx : x + 2 ≤ 2 * M) (hw : x ∉ walk M) :
    (σ.backend n).kv (nodeKey x) = some (nodeHash t.hasher t.codec D M x) := by
  obtain ⟨ext, he, hD⟩ := σ.store n
  rw [he, ((treeStore_atVersion t.hasher t.codec ext hD hM hMn hx).2 hw).2,
    nodeHash_take (hMn.trans (σ.len_le_size n))]

theorem Schedule.len_of_read {n N : Nat}
    (h : σ.view n metaKey = .ok none ∧ N = 0 ∨
      ∃ bytes, σ.view n metaKey = .ok (some bytes) ∧ bytes.length = 8 ∧ N = fromBe bytes) :
    N = σ.len n := by
  have hm := σ.meta_entry n
  have hD := σ.len_le_half n
  rcases h with ⟨h, -⟩ | ⟨bytes, h, -, rfl⟩
  · rw [σ.view_ok h] at hm
    cases hm
  · rw [σ.view_ok h] at hm
    cases hm
    rw [fromBe_be64, Nat.mod_eq_of_lt (by omega)]

theorem Schedule.getNodeHashAtVersion_readsTo {n M x : Nat} (hM : 1 ≤ M) (hMn : M ≤ σ.len n)
    (hx : x + 2 ≤ 2 * M) :
    ReadsTo (t.getNodeHashAtVersion x M) σ.view n fun h n' =>
      h = nodeHash t.hasher t.codec D M x ∧ n < n' :=
  (t.getNodeHashAtVersion_readsTo x M).mono fun h n' hr => by
    have hv := σ.versioned_entry hM hMn hx
    rcases hr with ⟨hr, rfl⟩ | ⟨hr, hc, rfl⟩
    · rw [σ.view_ok hr] at hv
      split_ifs at hv
      exact ⟨Option.some.inj hv, by omega⟩
    · rw [σ.view_ok hr] at hv
      split_ifs at hv with hw
      have hc' := σ.current_entry hM (hMn.trans (σ.len_mono (Nat.le_add_right n 1))) hx hw
      rw [σ.view_ok hc] at hc'
      exact ⟨Option.some.inj hc', by omega⟩

theorem Schedule.proveInclusionAtSize_readsTo (i M n₀ : Nat) :
    ReadsTo (t.proveInclusionAtSize i M) σ.view n₀ fun p _ =>
      p = InclusionProof.fromDigests (auditPath t.hasher t.codec i (D.take M)) := by
  refine t.len_readsTo.bind fun N n₁ ⟨hn₁, hN⟩ => ?_
  rw [σ.len_of_read hN]
  subst hn₁
  dsimp only
  by_cases hMN : M > σ.len n₀
  · rw [if_pos hMN]
    exact (ReadsTo.throw _ (R := fun _ _ => False)).bind fun _ _ h => h.elim
  rw [if_neg hMN, pure_bind]
  by_cases hiM : i ≥ M
  · rw [if_pos hiM]
    exact (ReadsTo.throw _ (R := fun _ _ => False)).bind fun _ _ h => h.elim
  rw [if_neg hiM, pure_bind]
  have hMle : M ≤ σ.len n₀ := by omega
  rw [← inclusionProof_hashes t.hasher t.codec (by omega : i < M)
    (hMle.trans (by simp [Schedule.len]))]
  exact (ReadsTo.mapM (fun m => n₀ < m) _ (fun x hx m hm =>
    (σ.getNodeHashAtVersion_readsTo (by omega) (hMle.trans (σ.len_mono hm.le))
      (lt_of_mem_indicesForInclusionProof (by omega) hx)).mono fun y m' ⟨hy, hm'⟩ =>
        ⟨hy, by omega⟩) (n₀ + 1) (by omega)).bind fun ys _ ⟨hys, _⟩ =>
    ReadsTo.pure (by rw [hys])

theorem Schedule.proveInclusionEfficient_readsTo {s : StorageBackedMerkleTree}
    {D : List Certificate} (σ : s.tree.Schedule D) (M i n₀ : Nat) :
    ReadsTo (s.proveInclusionEfficient M i) σ.view n₀ fun p _ =>
      p = InclusionProof.fromDigests (auditPath s.tree.hasher s.tree.codec i (D.take M)) := by
  unfold StorageBackedMerkleTree.proveInclusionEfficient
  dsimp only
  by_cases hiM : i ≥ M
  · rw [if_pos hiM]
    exact (ReadsTo.throw _ (R := fun _ _ => False)).bind fun _ _ h => h.elim
  rw [if_neg hiM, pure_bind]
  refine (ReadsTo.liftTree s.tree.len_readsTo).bind fun N n₁ _ => ?_
  dsimp only
  by_cases hMN : M > N
  · rw [if_pos hMN]
    exact (ReadsTo.throw _ (R := fun _ _ => False)).bind fun _ _ h => h.elim
  rw [if_neg hMN, pure_bind]
  exact (ReadsTo.liftTree (σ.proveInclusionAtSize_readsTo i M n₁)).bind fun p _ hp =>
    ReadsTo.pure hp

theorem Schedule.len_read (hf : ∀ m key, (σ.backend m).readFault key = none) (n : Nat) :
    ReadsYield t.len σ.view n (σ.len n) (n + 1) :=
  t.len_readsYield (by rw [σ.view_eq (hf _ _), σ.meta_entry]) (by have := σ.len_le_half n; omega)

theorem Schedule.getNodeHashAtVersion_readsYield (hf : ∀ m key, (σ.backend m).readFault key = none)
    {n M x : Nat} (hM : 1 ≤ M) (hMn : M ≤ σ.len n) (hx : x + 2 ≤ 2 * M) :
    ∃ n', n < n' ∧
      ReadsYield (t.getNodeHashAtVersion x M) σ.view n (nodeHash t.hasher t.codec D M x) n' := by
  have hv := σ.versioned_entry hM hMn hx
  by_cases hw : x ∈ walk M
  · rw [if_pos hw] at hv
    exact ⟨n + 1, by omega,
      t.getNodeHashAtVersion_readsYield_versioned (by rw [σ.view_eq (hf _ _), hv]) (mth_length _)⟩
  · rw [if_neg hw] at hv
    exact ⟨n + 2, by omega, t.getNodeHashAtVersion_readsYield_current
      (by rw [σ.view_eq (hf _ _), hv])
      (by rw [σ.view_eq (hf _ _), σ.current_entry hM (hMn.trans (σ.len_mono (Nat.le_add_right n 1))) hx hw])
      (mth_length _)⟩

theorem Schedule.proveInclusionAtSize_readsYield (hf : ∀ m key, (σ.backend m).readFault key = none)
    {i M n₀ : Nat} (hi : i < M) (hM : M ≤ σ.len n₀) :
    ∃ n', ReadsYield (t.proveInclusionAtSize i M) σ.view n₀
      (InclusionProof.fromDigests (auditPath t.hasher t.codec i (D.take M))) n' := by
  obtain ⟨n', -, hs⟩ := ReadsYield.mapM (f := fun x => t.getNodeHashAtVersion x M)
    (fun m => n₀ < m) (indicesForInclusionProof M i) (fun x hx m hm =>
      (σ.getNodeHashAtVersion_readsYield hf (by omega) (hM.trans (σ.len_mono hm.le))
        (lt_of_mem_indicesForInclusionProof hi hx)).imp fun _ ⟨hm', h⟩ => ⟨by omega, h⟩)
    (n₀ + 1) (by omega)
  refine ⟨n', (σ.len_read hf n₀).bind ?_⟩
  dsimp only
  rw [if_neg (by omega), pure_bind, if_neg (by omega), pure_bind,
    ← inclusionProof_hashes t.hasher t.codec hi (hM.trans (σ.len_le_length n₀))]
  exact hs.bind (ReadsYield.pure _)

theorem Schedule.proveInclusionEfficient_readsYield {s : StorageBackedMerkleTree}
    {D : List Certificate} (σ : s.tree.Schedule D) (hf : ∀ m key, (σ.backend m).readFault key = none)
    {M i n₀ : Nat} (hi : i < M) (hM : M ≤ σ.len n₀) :
    ∃ n', ReadsYield (s.proveInclusionEfficient M i) σ.view n₀
      (InclusionProof.fromDigests (auditPath s.tree.hasher s.tree.codec i (D.take M))) n' := by
  obtain ⟨n', h⟩ := σ.proveInclusionAtSize_readsYield hf hi (hM.trans (σ.len_mono (Nat.le_add_right n₀ 1)))
  refine ⟨n', ?_⟩
  unfold StorageBackedMerkleTree.proveInclusionEfficient
  dsimp only
  rw [if_neg (by omega), pure_bind]
  refine (ReadsYield.liftTree (σ.len_read hf n₀)).bind ?_
  dsimp only
  rw [if_neg (by omega), pure_bind]
  exact h.liftTree.bind (ReadsYield.pure _)

/-- The schedule in which one commit lands right after the reader's first read: that read is
served by the state `a` over the first `k` items, every later read by the state `b` over the
first `k'`. -/
def Schedule.commitAfterFirst {a b : Store} {k k' : Nat} (ha : t.Reachable (D.take k) a)
    (hb : t.Reachable (D.take k') b) (hk : k ≤ k') : t.Schedule D where
  backend
    | 0 => .ofStore a
    | _ + 1 => .ofStore b
  size
    | 0 => k
    | _ + 1 => k'
  reachable
    | 0 => ha
    | _ + 1 => hb
  size_le_succ
    | 0 => hk
    | _ + 1 => le_rfl

/-- Leaf `7` is committed right after the reader's first read: that read sees the first seven of
`eightItems`, every later read all eight. -/
def leafSevenCommitted : toy.Schedule eightItems :=
  Schedule.commitAfterFirst (k := 7) (toy.reachable_batchStore (r := 0) rfl rfl)
    (toy.reachable_batchStore (r := 0) rfl rfl : toy.Reachable (eightItems.take 8) _) (by decide)

def certificateSevenCommitted : StorageBackedMerkleTree.toy.tree.Schedule eightCertificates :=
  Schedule.commitAfterFirst (k := 7)
    (StorageBackedMerkleTree.toy.tree.reachable_batchStore (r := 0) rfl rfl)
    (StorageBackedMerkleTree.toy.tree.reachable_batchStore (r := 0) rfl rfl :
      StorageBackedMerkleTree.toy.tree.Reachable (eightCertificates.take 8) _) (by decide)

/-- Whatever the writer commits between the reads, `prove_inclusion_at_size(i, M)` and the
server's `prove_inclusion_efficient(M, i)` succeed only with the RFC 6962 path of leaf `i` in the
tree of the first `M` items. -/
theorem inclusionProofs_interleaved {E : List Certificate} {s : StorageBackedMerkleTree}
    (τ : s.tree.Schedule E) (i M : Nat) :
    ReadsTo (t.proveInclusionAtSize i M) σ.view 0
      (fun p _ => p = InclusionProof.fromDigests (auditPath t.hasher t.codec i (D.take M))) ∧
    ReadsTo (s.proveInclusionEfficient M i) τ.view 0
      (fun p _ => p = InclusionProof.fromDigests
        (auditPath s.tree.hasher s.tree.codec i (E.take M))) :=
  ⟨σ.proveInclusionAtSize_readsTo i M 0, τ.proveInclusionEfficient_readsTo M i 0⟩

theorem inclusionProofs_across_commit :
    (∃ p n, ReadsYield (toy.proveInclusionAtSize 0 7) leafSevenCommitted.view 0 p n ∧
      p = InclusionProof.fromDigests (auditPath toy.hasher toy.codec 0 (eightItems.take 7))) ∧
    (∃ p n, ReadsYield (StorageBackedMerkleTree.toy.proveInclusionEfficient 7 0)
      certificateSevenCommitted.view 0 p n ∧
      p = InclusionProof.fromDigests (auditPath .toy .certificate 0 (eightCertificates.take 7))) :=
  have h := inclusionProofs_interleaved leafSevenCommitted certificateSevenCommitted 0 7
  have ⟨n, hp⟩ := leafSevenCommitted.proveInclusionAtSize_readsYield
    (fun m _ => by cases m <;> rfl) (by decide) (by decide)
  have ⟨n', hq⟩ := certificateSevenCommitted.proveInclusionEfficient_readsYield
    (fun m _ => by cases m <;> rfl) (by decide) (by decide)
  ⟨⟨_, n, hp, h.1 _ _ hp⟩, ⟨_, n', hq, h.2 _ _ hq⟩⟩

/-- Whatever the writer commits around it, `get(i)` returns the item at `i` of the state that
serves its one read: `None` before leaf `i` is committed, the item appended at `i` after. Leaves
are written once, so a reader never sees another item there. -/
theorem Schedule.get_interleaved
    (hcodec : ∀ d ∈ D, ∀ bytes, t.codec.serialize d = .ok bytes → t.codec.deserialize bytes = .ok d)
    {i : Nat} (hi : i < 2 ^ 64) (n : Nat) :
    ReadsTo (t.get i) σ.view n fun r _ => r = (D.take (σ.size n))[i]? := by
  unfold get
  refine (t.db.get_readsTo _).bind fun r n₁ ⟨hr, _⟩ => ?_
  obtain ⟨⟨ext, he⟩, -, hser⟩ := (σ.reachable n).storeInv
  have hkv := σ.view_ok hr
  rw [he, treeStore_leafKey hi] at hkv
  rcases hd : (D.take (σ.size n))[i]? with _ | d
  · rw [hd, Option.none_bind] at hkv
    subst hkv
    exact ReadsTo.pure rfl
  · have hdm := List.getElem?_mem hd
    obtain ⟨bytes, hb⟩ := hser d hdm
    rw [hd, Option.some_bind, hb] at hkv
    subst hkv
    simp only [Except.toOption, hcodec d (List.mem_of_mem_take hdm) bytes hb]
    exact ReadsTo.pure rfl

theorem get_seven_across_commit :
    (∀ d ∈ eightCertificates, ∀ bytes, LeafCodec.certificate.serialize d = .ok bytes →
      LeafCodec.certificate.deserialize bytes = .ok d) ∧ 7 < 2 ^ 64 ∧
    ReadsTo (StorageBackedMerkleTree.toy.tree.get 7) certificateSevenCommitted.view 0
      (fun r _ => r = (eightCertificates.take (certificateSevenCommitted.size 0))[7]?) ∧
    ReadsTo (StorageBackedMerkleTree.toy.tree.get 7) certificateSevenCommitted.view 1
      (fun r _ => r = (eightCertificates.take (certificateSevenCommitted.size 1))[7]?) :=
  have hc : ∀ d ∈ eightCertificates, ∀ bytes, LeafCodec.certificate.serialize d = .ok bytes →
      LeafCodec.certificate.deserialize bytes = .ok d := fun d hd _ hb => by
    obtain ⟨k, -, rfl⟩ := List.mem_map.mp hd
    exact certificate_decodes (by simp) hb
  ⟨hc, by decide, certificateSevenCommitted.get_interleaved hc (by decide) 0,
    certificateSevenCommitted.get_interleaved hc (by decide) 1⟩

theorem Schedule.root_readsYield (hf : ∀ m key, (σ.backend m).readFault key = none) {n : Nat}
    (hN : 1 ≤ σ.len n) :
    ReadsYield t.root σ.view n
      ⟨nodeHash t.hasher t.codec D (σ.len (n + 1)) (rootIdx (σ.len n)), σ.len n⟩ (n + 2) := by
  have hx : rootIdx (σ.len n) + 2 ≤ 2 * σ.len (n + 1) := by
    have := σ.len_mono (Nat.le_add_right n 1)
    have := subtreeRoot_bounds 0 hN
    unfold rootIdx
    omega
  refine (σ.len_read hf n).bind ?_
  simp only [show ¬ σ.len n = 0 by omega, if_false]
  exact (t.getNodeHash_readsYield (by rw [σ.view_eq (hf _ _), σ.node_entry hx]) nodeHash_length).bind
    (ReadsYield.pure _)

theorem Schedule.nodeHashes_readsYield (hf : ∀ m key, (σ.backend m).readFault key = none)
    {n N : Nat} (hc : ∀ k, n < k → σ.len k = N) {xs : List Nat} (hxs : ∀ x ∈ xs, x + 2 ≤ 2 * N) :
    ∃ n', ReadsYield (xs.mapM t.getNodeHashInternal) σ.view (n + 1)
      (xs.map (nodeHash t.hasher t.codec D N)) n' :=
  have ⟨n', _, h⟩ := ReadsYield.mapM (f := t.getNodeHashInternal) (fun m => n < m) xs
    (fun x hx m hm => ⟨m + 1, by omega, t.getNodeHash_readsYield
      (by rw [σ.view_eq (hf _ _), σ.node_entry (by rw [hc m hm]; exact hxs x hx), hc m hm])
      nodeHash_length⟩) (n + 1) (by omega)
  ⟨n', h⟩

theorem Schedule.proveInclusion_readsYield (hf : ∀ m key, (σ.backend m).readFault key = none)
    {n i N' : Nat} (hc : ∀ k, n < k → σ.len k = N') (hi : i < σ.len n) :
    ∃ n', ReadsYield (t.proveInclusion i) σ.view n (InclusionProof.fromDigests
      ((indicesForInclusionProof (σ.len n) i).map (nodeHash t.hasher t.codec D N'))) n' := by
  have hN : σ.len n ≤ N' := hc (n + 1) (Nat.lt_add_one n) ▸ σ.len_mono (Nat.le_add_right n 1)
  obtain ⟨n', h⟩ := σ.nodeHashes_readsYield hf hc fun x hx =>
    (lt_of_mem_indicesForInclusionProof hi hx).trans (by omega)
  refine ⟨n', (σ.len_read hf n).bind ?_⟩
  dsimp only
  rw [if_neg (by omega), pure_bind]
  exact h.bind (ReadsYield.pure _)

theorem Schedule.proveConsistency_readsYield (hf : ∀ m key, (σ.backend m).readFault key = none)
    {n m N' : Nat} (hc : ∀ k, n < k → σ.len k = N') (hm : 0 < m) (hmN : m < σ.len n) :
    ∃ n', ReadsYield (t.proveConsistency m) σ.view n (ConsistencyProof.fromDigests
      ((indicesForConsistencyProof m (σ.len n - m)).map (nodeHash t.hasher t.codec D N'))) n' := by
  have hN : σ.len n ≤ N' := hc (n + 1) (Nat.lt_add_one n) ▸ σ.len_mono (Nat.le_add_right n 1)
  obtain ⟨n', h⟩ := σ.nodeHashes_readsYield hf hc fun x hx =>
    (lt_of_mem_indicesForConsistencyProof hm hmN.le hx).trans (by omega)
  refine ⟨n', (σ.len_read hf n).bind ?_⟩
  dsimp only
  rw [if_neg (by omega), pure_bind, if_neg (by omega), pure_bind]
  exact h.bind (ReadsYield.pure _)

/-- The reader reads the size `7`, then leaf `7` is committed, then the reader reads node entries.
`root` returns the hash of all eight items with the size `7`. `prove_inclusion(0)` and
`prove_consistency(4)` return the hashes at size `8` of their proof nodes at size `7`, among them
node `11`, which covers the leaves `4..8` at size `8` and `4..7` at size `7`: neither proof verifies
against the root at size `7`. -/
theorem reads_across_commit_mix_sizes :
    ReadsYield toy.root leafSevenCommitted.view 0 ⟨mth toy.hasher toy.codec eightItems, 7⟩ 2 ∧
    mth toy.hasher toy.codec eightItems ≠ mth toy.hasher toy.codec (eightItems.take 7) ∧
    (∃ n, ReadsYield (toy.proveInclusion 0) leafSevenCommitted.view 0 (InclusionProof.fromDigests
      ((indicesForInclusionProof 7 0).map (nodeHash toy.hasher toy.codec eightItems 8))) n) ∧
    ¬ RootHash.VerifiesInclusion toy.hasher toy.codec ⟨mth toy.hasher toy.codec (eightItems.take 7), 7⟩
      0 0 (InclusionProof.fromDigests
        ((indicesForInclusionProof 7 0).map (nodeHash toy.hasher toy.codec eightItems 8))) ∧
    (∃ n, ReadsYield (toy.proveConsistency 4) leafSevenCommitted.view 0 (ConsistencyProof.fromDigests
      ((indicesForConsistencyProof 4 (7 - 4)).map (nodeHash toy.hasher toy.codec eightItems 8))) n) ∧
    ¬ RootHash.VerifiesConsistency toy.hasher ⟨mth toy.hasher toy.codec (eightItems.take 4), 4⟩
      ⟨mth toy.hasher toy.codec (eightItems.take 7), 7⟩ (ConsistencyProof.fromDigests
        ((indicesForConsistencyProof 4 (7 - 4)).map (nodeHash toy.hasher toy.codec eightItems 8))) := by
  have hf : ∀ m key, (leafSevenCommitted.backend m).readFault key = none := fun m _ => by
    cases m <;> rfl
  have hc : ∀ k, 0 < k → leafSevenCommitted.len k = 8 := fun k hk => by
    cases k
    · omega
    · rfl
  have hr : ReadsYield toy.root leafSevenCommitted.view 0
      ⟨nodeHash toy.hasher toy.codec eightItems 8 (rootIdx 7), 7⟩ 2 :=
    leafSevenCommitted.root_readsYield hf (by decide)
  have e : nodeHash toy.hasher toy.codec eightItems 8 (rootIdx 7) =
      mth toy.hasher toy.codec eightItems := by decide
  exact ⟨e ▸ hr, by decide, leafSevenCommitted.proveInclusion_readsYield hf hc (by decide), by decide,
    leafSevenCommitted.proveConsistency_readsYield hf hc (by decide) (by decide), by decide⟩

end SlateDbBackedTree

end CompactLog
