import CompactLog.Writer

/-! What an append does on any store: a call that fails leaves the store as it was, and one that
commits changes only the keys of the new leaves' walks, `meta` and the extras. -/

namespace CompactLog

/-- The keys the append of leaf `p` puts: the leaf, and the node and versioned keys of each node of
its walk. -/
def ItemKey (p : Nat) (key : Bytes) : Prop :=
  key = leafKey p ∨ ∃ x ∈ walk (p + 1), key = nodeKey x ∨ key = versionedNodeKey x (p + 1)

theorem ItemKey.isTreeKey {p : Nat} {key : Bytes} (h : ItemKey p key) : IsTreeKey key := by
  rcases h with rfl | ⟨x, -, rfl | rfl⟩
  exacts [.inl ⟨p, rfl⟩, .inr (.inl ⟨x, rfl⟩), .inr (.inr (.inl ⟨x, p + 1, rfl⟩))]

/-- How a committed append of the `k` items after `S`, with extras `E`, leaves `s` as `s'`: the
extras hold their last values, `meta` holds `S + k` unless an extra sets it, and every key that no
extra and no new leaf's walk puts is unchanged. In particular, where no extra writes, the leaves
below `S`, the versioned entries of sizes up to `S` and the application's keys stay as they were. -/
structure AppendFrame (s s' : Store) (S k : Nat) (E : WriteBatch) : Prop where
  extras : ∀ key v, E.lastPut key = some v → s' key = some v
  metaSize : E.lastPut metaKey = none → s' metaKey = some (be64 (S + k))
  frame : ∀ key, E.lastPut key = none → key ≠ metaKey →
    (∀ p, S ≤ p → p < S + k → ¬ ItemKey p key) → s' key = s key
  oldLeaves : ∀ i, i < S → E.lastPut (leafKey i) = none → s' (leafKey i) = s (leafKey i)
  oldVersions : ∀ x v, v ≤ S → E.lastPut (versionedNodeKey x v) = none →
    s' (versionedNodeKey x v) = s (versionedNodeKey x v)
  appKeys : ∀ key, ¬ IsTreeKey key → E.lastPut key = none → s' key = s key

section AppendFrame

variable {s : Store} {w E : WriteBatch} {S k : Nat}

theorem apply_meta_extras_of_ne {m key : Bytes} (hE : E.lastPut key = none) (hm : key ≠ metaKey)
    (hw : ∀ kv ∈ w, kv.1 ≠ key) : s.apply (w ++ [(metaKey, m)] ++ E) key = s key := by
  rw [Store.apply_append, Store.apply_eq, hE, Option.none_or, Store.apply_append,
    Store.apply_of_forall_ne _ _ (by simpa [eq_comm] using hm), Store.apply_of_forall_ne _ _ hw]

theorem AppendFrame.of_apply (hS : S < 2 ^ 64)
    (hw : ∀ kv ∈ w, ∃ p, S ≤ p ∧ p < S + k ∧ p < 2 ^ 63 ∧ ItemKey p kv.1) :
    AppendFrame s (s.apply (w ++ [(metaKey, be64 (S + k))] ++ E)) S k E where
  extras key v h := by rw [Store.apply_append, Store.apply_eq, h]; rfl
  metaSize h := by
    rw [Store.apply_append, Store.apply_eq, h, Option.none_or, Store.apply_append]
    exact Store.apply_of_mem _ _ (List.mem_singleton_self _) (by simp)
  frame key hE hm hk := apply_meta_extras_of_ne hE hm fun kv hkv he => by
    obtain ⟨p, h1, h2, -, h4⟩ := hw kv hkv
    exact hk p h1 h2 (he ▸ h4)
  oldLeaves i hi hE := apply_meta_extras_of_ne hE (leafKey_ne_metaKey i) fun kv hkv he => by
    obtain ⟨p, h1, -, h3, h4 | ⟨x, -, h4 | h4⟩⟩ := hw kv hkv <;> rw [he] at h4
    · rw [leafKey_inj, Nat.mod_eq_of_lt (by omega), Nat.mod_eq_of_lt (by omega)] at h4
      omega
    · exact nodeKey_ne_leafKey _ _ h4.symm
    · exact versionedNodeKey_ne_leafKey _ _ _ h4.symm
  oldVersions x v hv hE := apply_meta_extras_of_ne hE (versionedNodeKey_ne_metaKey x v)
    fun kv hkv he => by
      obtain ⟨p, h1, -, h3, h4 | ⟨y, -, h4 | h4⟩⟩ := hw kv hkv <;> rw [he] at h4
      · exact leafKey_ne_versionedNodeKey _ _ _ h4.symm
      · exact nodeKey_ne_versionedNodeKey _ _ _ h4.symm
      · rw [versionedNodeKey_inj, Nat.mod_eq_of_lt (by omega : v < 2 ^ 64),
          Nat.mod_eq_of_lt (by omega : p + 1 < 2 ^ 64)] at h4
        omega
  appKeys key hk hE := apply_meta_extras_of_ne hE (fun e => hk (.inr (.inr (.inr e))))
    fun kv hkv he => by
      obtain ⟨p, -, -, -, h4⟩ := hw kv hkv
      exact hk (he ▸ h4.isTreeKey)

/-- The change of an append as the writer's callers see it, with the extras off the tree's keys:
a key changes only at a new leaf's walk, at `meta`, which holds `S + k`, or at an extra, which
holds its last value. -/
structure AppendChanges (s s' : Store) (S k : Nat) (E : WriteBatch) : Prop where
  changed : ∀ key, s' key ≠ s key →
    (∃ p, S ≤ p ∧ p < S + k ∧ ItemKey p key) ∨ key = metaKey ∨ E.lastPut key ≠ none
  metaSize : s' metaKey = some (be64 (S + k))
  extras : ∀ key v, E.lastPut key = some v → s' key = some v
  oldLeaves : ∀ i, i < S → s' (leafKey i) = s (leafKey i)
  oldVersions : ∀ x v, v ≤ S → s' (versionedNodeKey x v) = s (versionedNodeKey x v)
  appKeys : ∀ key, ¬ IsTreeKey key → E.lastPut key = none → s' key = s key

theorem lastPut_treeKey (hE : ∀ kv ∈ E, ¬ IsTreeKey kv.1) {key : Bytes} (hk : IsTreeKey key) :
    E.lastPut key = none :=
  WriteBatch.lastPut_eq_none key fun kv hkv he => hE kv hkv (he ▸ hk)

theorem AppendFrame.changes {s' : Store} (hf : AppendFrame s s' S k E)
    (hE : ∀ kv ∈ E, ¬ IsTreeKey kv.1) : AppendChanges s s' S k E where
  changed key hne := by
    by_contra hc
    simp only [not_or, not_exists, not_and, ne_eq, not_not] at hc
    exact hne (hf.frame key hc.2.2 hc.2.1 hc.1)
  metaSize := hf.metaSize (lastPut_treeKey hE (.inr (.inr (.inr rfl))))
  extras := hf.extras
  oldLeaves i hi := hf.oldLeaves i hi (lastPut_treeKey hE (.inl ⟨i, rfl⟩))
  oldVersions x v hv := hf.oldVersions x v hv (lastPut_treeKey hE (.inr (.inr (.inl ⟨x, v, rfl⟩))))
  appKeys := hf.appKeys

end AppendFrame

section Atomic

variable {α β : Type} {b : Backend}

/-- A run of `p` from `b` that ends in an error leaves the backend as it was. -/
def FailsClean (p : TreeM α) (b : Backend) : Prop :=
  ∀ e, (p.run.run b).1 = some (.error e) → (p.run.run b).2 = b

theorem Returns.failsClean {p : TreeM α} {Q : α → Prop} (h : Returns p b Q) : FailsClean p b :=
  fun _ _ => h.1

theorem FailsClean.bind {x : TreeM α} {f : α → TreeM β} {P : α → Prop} (hx : Returns x b P)
    (hf : ∀ a, P a → FailsClean (f a) b) : FailsClean (x >>= f) b := by
  intro e h
  rcases hx.run_bind_error h with e' | ⟨a, ha, e'⟩
  · rw [e']
  · rw [e'] at h ⊢
    exact hf a ha e h

theorem DbHandle.write_failsClean (d : DbHandle) (batch : WriteBatch) :
    FailsClean (d.write batch) b := by
  intro e h
  rcases d.write_run batch (b := b) with e' | ⟨_, e'⟩ <;> rw [e'] at h ⊢
  · cases h

theorem DbHandle.write_pure_failsClean (d : DbHandle) (batch : WriteBatch) (r : α) :
    FailsClean (d.write batch >>= fun _ => pure r) b := by
  intro e h
  rw [ExceptT.run_bind, Io.run_bind] at h ⊢
  rcases d.write_run batch (b := b) with e' | ⟨_, e'⟩ <;> rw [e'] at h ⊢
  · cases h
  · rfl

end Atomic

namespace SlateDbBackedTree

variable {T : Type} (t : SlateDbBackedTree T) {b : Backend}

theorem batchSiblingHash_reads (prefetched computed : Nat → Option Bytes) (c x : Nat) :
    Returns (t.batchSiblingHash prefetched computed c x) b fun _ => True := by
  unfold batchSiblingHash
  split
  · exact ⟨rfl, fun _ _ => trivial⟩
  · refine (checkedMul_returns _ _).bind fun _ _ => ?_
    dsimp only
    split
    · exact ⟨rfl, fun _ _ => trivial⟩
    · simp only [pure_bind]
      split
      · exact ⟨rfl, fun _ _ => trivial⟩
      · refine (t.db.get_returns _).bind fun r _ => ?_
        split
        · exact (t.readHash_returns _).mono fun _ _ => trivial
        · exact ⟨rfl, fun _ _ => trivial⟩

theorem batchClimb_keys (prefetched : Nat → Option Bytes) (n : Nat) :
    ∀ (xs : List Nat) (h : Bytes) (st : BatchState),
      Returns (t.batchClimb prefetched n xs h st) b fun st' =>
        st'.currentNumLeaves = st.currentNumLeaves ∧ ∃ w, st'.batch = st.batch ++ w ∧
          ∀ kv ∈ w, ∃ y ∈ xs, kv.1 = nodeKey (parent y n) ∨ kv.1 = versionedNodeKey (parent y n) n
  | [], _, _ => Returns.pure ⟨rfl, [], by simp, by simp⟩
  | x :: xs, _, st => by
    simp only [batchClimb]
    refine (t.batchSiblingHash_reads _ _ _ _).bind fun _ _ =>
      (batchClimb_keys prefetched n xs _ _).mono fun st' ⟨h1, w, hw, hk⟩ =>
        ⟨h1, _, hw.trans (List.append_assoc _ _ _), fun kv hkv => ?_⟩
    rcases List.mem_append.mp hkv with hkv | hkv
    · simp only [List.mem_cons, List.mem_singleton, List.not_mem_nil, or_false] at hkv
      exact ⟨x, List.mem_cons_self _ _, by rcases hkv with rfl | rfl <;> simp⟩
    · obtain ⟨y, hy, hy'⟩ := hk kv hkv
      exact ⟨y, List.mem_cons_of_mem _ hy, hy'⟩

theorem mem_walk_succ {c y : Nat} : y ∈ walk (c + 1) ↔
    y = 2 * c ∨ ∃ x ∈ climb (c + 1) (c + 1) (2 * c), y = parent x (c + 1) := by
  rw [walk_succ, subtreeRoot_of_le_one le_rfl]
  simp [eq_comm]

theorem batchPushItem_keys (prefetched : Nat → Option Bytes) (st : BatchState) (item : T) :
    Returns (t.batchPushItem prefetched st item) b fun st' =>
      st'.currentNumLeaves = st.currentNumLeaves + 1 ∧ st.currentNumLeaves < 2 ^ 63 ∧
        ∃ w, st'.batch = st.batch ++ w ∧ ∀ kv ∈ w, ItemKey st.currentNumLeaves kv.1 := by
  unfold batchPushItem
  refine (encodeLeaf_returns _ _).bind fun bytes _ => ?_
  refine (checkedAdd_returns _ 1).bind fun n hn => ?_
  refine (internalOfLeaf_returns _).bind fun x hx => ?_
  obtain ⟨rfl, -⟩ := hn
  obtain ⟨rfl, hc63⟩ := hx
  refine (t.batchClimb_keys _ _ _ _ _).bind fun st' ⟨_, w, hw, hk⟩ =>
    Returns.pure ⟨rfl, hc63, [(leafKey st.currentNumLeaves, bytes),
      (nodeKey (2 * st.currentNumLeaves), leafHash t.hasher t.codec item),
      (versionedNodeKey (2 * st.currentNumLeaves) (st.currentNumLeaves + 1),
        leafHash t.hasher t.codec item)] ++ w, hw.trans (by simp), fun kv hkv => ?_⟩
  simp only [List.mem_append, List.mem_cons, List.mem_singleton, List.not_mem_nil, or_false] at hkv
  rcases hkv with (rfl | rfl | rfl) | hkv
  · exact .inl rfl
  · exact .inr ⟨_, mem_walk_succ.mpr (.inl rfl), .inl rfl⟩
  · exact .inr ⟨_, mem_walk_succ.mpr (.inl rfl), .inr rfl⟩
  · obtain ⟨y, hy, hy'⟩ := hk kv hkv
    exact .inr ⟨_, mem_walk_succ.mpr (.inr ⟨y, hy, rfl⟩), hy'⟩

theorem batchPushItems_keys (prefetched : Nat → Option Bytes) (S : Nat) (L : List T) :
    Returns (L.foldlM (t.batchPushItem prefetched) ⟨S, [], fun _ => none⟩) b fun st =>
      st.currentNumLeaves = S + L.length ∧
        ∀ kv ∈ st.batch, ∃ p, S ≤ p ∧ p < S + L.length ∧ p < 2 ^ 63 ∧ ItemKey p kv.1 := by
  refine Returns.foldlM (fun pre st => st.currentNumLeaves = S + pre.length ∧
      ∀ kv ∈ st.batch, ∃ p, S ≤ p ∧ p < S + pre.length ∧ p < 2 ^ 63 ∧ ItemKey p kv.1) L
    (fun pre x _ st _ ⟨hc, hk⟩ => (t.batchPushItem_keys _ st x).mono
      fun st' ⟨h1, h63, w, hw, hw'⟩ => ⟨by simp [h1, hc, Nat.add_assoc], fun kv hkv => ?_⟩)
    ⟨rfl, by simp⟩
  rw [hw] at hkv
  rcases List.mem_append.mp hkv with hkv | hkv
  · obtain ⟨p, h1, h2, h3, h4⟩ := hk kv hkv
    exact ⟨p, h1, by simp; omega, h3, h4⟩
  · exact ⟨st.currentNumLeaves, by omega, by simp; omega, h63, hc ▸ hw' kv hkv⟩

theorem batchPushWithData_commits {S r : Nat} {L : List T} {E : WriteBatch}
    (hm : b.kv metaKey = some (be64 S)) (hS : S < 2 ^ 64)
    (h : ((t.batchPushWithData L E).run.run b).1 = some (.ok r)) :
    ∃ w, (∀ kv ∈ w, ∃ p, S ≤ p ∧ p < S + L.length ∧ p < 2 ^ 63 ∧ ItemKey p kv.1) ∧
      ((t.batchPushWithData L E).run.run b).2.kv =
        b.kv.apply (w ++ [(metaKey, be64 (S + L.length))] ++ E) := by
  unfold batchPushWithData at h ⊢
  obtain ⟨_, rfl, e⟩ := (t.len_returns_of hm hS).run_bind_ok h
  rw [e] at h ⊢
  by_cases hemp : (L.isEmpty && E.isEmpty) = true
  · rw [if_pos hemp]
    rw [Bool.and_eq_true, List.isEmpty_iff, List.isEmpty_iff] at hemp
    obtain ⟨rfl, rfl⟩ := hemp
    refine ⟨[], by simp, ?_⟩
    show b.kv = _
    funext key
    by_cases hk : key = metaKey
    · subst hk
      simp [Store.apply, Store.set, hm]
    · simp [Store.apply, Store.set, hk]
  · rw [if_neg hemp] at h ⊢
    simp only [pure_bind] at h ⊢
    obtain ⟨_, -, e⟩ := (nodesToPrefetch_returns (b := b) _ _).run_bind_ok h
    rw [e] at h ⊢
    obtain ⟨pf, -, e⟩ := (t.prefetchNodes_returns _).run_bind_ok h
    rw [e] at h ⊢
    obtain ⟨st, ⟨hc, hk⟩, e⟩ := (t.batchPushItems_keys pf _ L).run_bind_ok h
    rw [e] at h ⊢
    have e := t.db.write_bind_ok _ h
    rw [e, hc]
    exact ⟨st.batch, hk, rfl⟩

theorem recalculateClimb_keys (n : Nat) :
    ∀ (xs : List Nat) (batch : WriteBatch) (computed : Nat → Option Bytes),
      Returns (t.recalculateClimb n xs batch computed) b fun batch' => ∃ w, batch' = batch ++ w ∧
        ∀ kv ∈ w, ∃ y ∈ xs, kv.1 = nodeKey (parent y n) ∨ kv.1 = versionedNodeKey (parent y n) n
  | [], _, _ => Returns.pure ⟨[], by simp, by simp⟩
  | x :: xs, batch, computed => by
    have step : ∀ sh : Bytes, Returns (t.recalculateClimb n xs (batch ++
        [(nodeKey (parent x n), sh), (versionedNodeKey (parent x n) n, sh)])
        (Function.update computed (parent x n) (some sh))) b fun batch' => ∃ w, batch' = batch ++ w ∧
          ∀ kv ∈ w, ∃ y ∈ x :: xs, kv.1 = nodeKey (parent y n) ∨
            kv.1 = versionedNodeKey (parent y n) n := fun sh =>
      (recalculateClimb_keys n xs _ _).mono fun _ ⟨w, hw, hk⟩ =>
        ⟨_, hw.trans (List.append_assoc _ _ _), fun kv hkv => by
          rcases List.mem_append.mp hkv with hkv | hkv
          · simp only [List.mem_cons, List.mem_singleton, List.not_mem_nil, or_false] at hkv
            exact ⟨x, List.mem_cons_self _ _, by rcases hkv with rfl | rfl <;> simp⟩
          · obtain ⟨y, hy, hy'⟩ := hk kv hkv
            exact ⟨y, List.mem_cons_of_mem _ hy, hy'⟩⟩
    simp only [recalculateClimb]
    split
    · simp only [pure_bind]
      exact (t.pathSiblingHash_returns _ _).bind fun _ _ => step _
    · exact Returns.throw _

theorem recalculatePathBatch_keys (batch : WriteBatch) (p : Nat) (d : T) :
    Returns (t.recalculatePathBatch batch p d (p + 1)) b fun batch' =>
      p < 2 ^ 63 ∧ ∃ w, batch' = batch ++ w ∧ ∀ kv ∈ w, ItemKey p kv.1 := by
  unfold recalculatePathBatch
  refine (internalOfLeaf_returns _).bind fun x hx => ?_
  obtain ⟨rfl, hp⟩ := hx
  refine (t.recalculateClimb_keys _ _ _ _).mono fun _ ⟨w, hw, hk⟩ => ⟨hp,
    [(nodeKey (2 * p), leafHash t.hasher t.codec d),
      (versionedNodeKey (2 * p) (p + 1), leafHash t.hasher t.codec d)] ++ w,
    hw.trans (by simp), fun kv hkv => ?_⟩
  simp only [List.mem_append, List.mem_cons, List.mem_singleton, List.not_mem_nil, or_false] at hkv
  rcases hkv with (rfl | rfl) | hkv
  · exact .inr ⟨_, mem_walk_succ.mpr (.inl rfl), .inl rfl⟩
  · exact .inr ⟨_, mem_walk_succ.mpr (.inl rfl), .inr rfl⟩
  · obtain ⟨y, hy, hy'⟩ := hk kv hkv
    exact .inr ⟨_, mem_walk_succ.mpr (.inr ⟨y, hy, rfl⟩), hy'⟩

theorem push_commits {S : Nat} {d : T} (hm : b.kv metaKey = some (be64 S)) (hS : S < 2 ^ 64)
    (h : ((t.push d).run.run b).1 = some (.ok ())) :
    S < 2 ^ 63 ∧ ∃ w, (∀ kv ∈ w, ItemKey S kv.1) ∧
      ((t.push d).run.run b).2.kv = b.kv.apply (w ++ [(metaKey, be64 (S + 1))]) := by
  unfold push at h ⊢
  obtain ⟨n, hn, e⟩ := (t.len_returns_of hm hS).run_bind_ok h
  subst n
  rw [e] at h ⊢
  by_cases hfull : S ≥ u64Max / 2
  · rw [if_pos hfull] at h
    cases h
  rw [if_neg hfull] at h ⊢
  simp only [pure_bind] at h ⊢
  obtain ⟨bytes, -, e⟩ := (encodeLeaf_returns t.codec d).run_bind_ok h
  rw [e] at h ⊢
  obtain ⟨_, ⟨rfl, -⟩, e⟩ := (checkedAdd_returns S 1).run_bind_ok h
  rw [e] at h ⊢
  obtain ⟨_, ⟨hS63, w, rfl, hk⟩, e⟩ := (t.recalculatePathBatch_keys [(leafKey S, bytes)] S d).run_bind_ok h
  rw [e] at h ⊢
  obtain ⟨_, ⟨rfl, -⟩, e⟩ := (checkedAdd_returns S 1).run_bind_ok h
  rw [e] at h ⊢
  refine ⟨hS63, (leafKey S, bytes) :: w, fun kv hkv => ?_, ?_⟩
  · rcases List.mem_cons.mp hkv with rfl | hkv
    · exact .inl rfl
    · exact hk kv hkv
  · rcases t.db.write_run _ (b := b) with e | ⟨_, e⟩ <;> rw [e] at h ⊢
    · rfl
    · cases h

theorem batchPushWithData_failsClean (L : List T) (E : WriteBatch) :
    FailsClean (t.batchPushWithData L E) b := by
  unfold batchPushWithData
  refine FailsClean.bind t.len_returns fun S _ => ?_
  dsimp only
  split
  · exact (Returns.pure (Q := fun _ => True) trivial).failsClean
  · simp only [pure_bind]
    exact FailsClean.bind (nodesToPrefetch_returns _ _) fun _ _ =>
      FailsClean.bind (t.prefetchNodes_returns _) fun pf _ =>
        FailsClean.bind (t.batchPushItems_keys pf S L) fun _ _ => t.db.write_pure_failsClean _ _

theorem push_failsClean (d : T) : FailsClean (t.push d) b := by
  unfold push
  refine FailsClean.bind t.len_returns fun S _ => ?_
  dsimp only
  split
  · exact (Returns.bind (Returns.throw _) fun _ h => (h : False).elim :
      Returns _ b fun _ => True).failsClean
  · simp only [pure_bind]
    exact FailsClean.bind (encodeLeaf_returns _ _) fun bytes _ =>
      FailsClean.bind (checkedAdd_returns S 1) fun n ⟨hn, _⟩ => by
        subst hn
        exact FailsClean.bind (t.recalculatePathBatch_keys _ S d) fun _ _ =>
          FailsClean.bind (checkedAdd_returns S 1) fun _ _ => t.db.write_failsClean _

/-- On any store, reachable or not, a `push`, `batch_push` or `batch_push_with_data` that returns an
error leaves the backend as it was: every read before the commit changes nothing, and the commit
is one batch, applied whole or not at all. -/
theorem appends_fail_clean (b : Backend) :
    (∀ d e, ((t.push d).run.run b).1 = some (.error e) → ((t.push d).run.run b).2 = b) ∧
    (∀ L e, ((t.batchPush L).run.run b).1 = some (.error e) → ((t.batchPush L).run.run b).2 = b) ∧
    (∀ L E e, ((t.batchPushWithData L E).run.run b).1 = some (.error e) →
      ((t.batchPushWithData L E).run.run b).2 = b) :=
  ⟨fun d => t.push_failsClean d, fun L => t.batchPushWithData_failsClean L [],
    fun L E => t.batchPushWithData_failsClean L E⟩

theorem batchPushWithData_frame {S r : Nat} {L : List T} {E : WriteBatch}
    (hm : b.kv metaKey = some (be64 S)) (hS : S < 2 ^ 64)
    (h : ((t.batchPushWithData L E).run.run b).1 = some (.ok r)) :
    AppendFrame b.kv ((t.batchPushWithData L E).run.run b).2.kv S L.length E := by
  obtain ⟨w, hw, e⟩ := t.batchPushWithData_commits hm hS h
  rw [e]
  exact AppendFrame.of_apply hS hw

theorem push_frame {S : Nat} {d : T} (hm : b.kv metaKey = some (be64 S)) (hS : S < 2 ^ 64)
    (h : ((t.push d).run.run b).1 = some (.ok ())) :
    AppendFrame b.kv ((t.push d).run.run b).2.kv S 1 [] := by
  obtain ⟨h63, w, hw, e⟩ := t.push_commits hm hS h
  rw [e, ← List.append_nil (w ++ _)]
  exact AppendFrame.of_apply hS fun kv hkv => ⟨S, le_rfl, by omega, h63, hw kv hkv⟩

/-- On any store holding `meta = S`, with the extras off the tree's keys, a `batch_push_with_data`
of `k` items that commits, and a `push` that commits, change a key only at the new leaves' walks,
at `meta`, which they set to `S + k`, or at an extra, which holds its last value. -/
theorem appends_frame {S : Nat} (hm : b.kv metaKey = some (be64 S)) (hS : S < 2 ^ 64) :
    (∀ (L : List T) E r, (∀ kv ∈ E, ¬ IsTreeKey kv.1) →
      ((t.batchPushWithData L E).run.run b).1 = some (.ok r) →
      AppendChanges b.kv ((t.batchPushWithData L E).run.run b).2.kv S L.length E) ∧
    (∀ d, ((t.push d).run.run b).1 = some (.ok ()) →
      AppendChanges b.kv ((t.push d).run.run b).2.kv S 1 []) :=
  ⟨fun _ _ _ hE h => (t.batchPushWithData_frame hm hS h).changes hE,
    fun _ h => (t.push_frame hm hS h).changes (by simp)⟩

theorem appends_frame_one_item : toy.pushStore [1] metaKey = some (be64 1) ∧ 1 < 2 ^ 64 ∧
    (∀ (L : List Nat) E r, (∀ kv ∈ E, ¬ IsTreeKey kv.1) →
      ((toy.batchPushWithData L E).run.run (.ofStore (toy.pushStore [1]))).1 = some (.ok r) →
      AppendChanges (toy.pushStore [1])
        ((toy.batchPushWithData L E).run.run (.ofStore (toy.pushStore [1]))).2.kv 1 L.length E) ∧
    (∀ d, ((toy.push d).run.run (.ofStore (toy.pushStore [1]))).1 = some (.ok ()) →
      AppendChanges (toy.pushStore [1]) ((toy.push d).run.run (.ofStore (toy.pushStore [1]))).2.kv
        1 1 []) :=
  ⟨rfl, by norm_num, appends_frame toy (b := .ofStore (toy.pushStore [1])) rfl (by norm_num)⟩

theorem extras_rewrite_tree_keys :
    ((toy.batchPushWithData [] [(leafKey 0, [9]), (metaKey, be64 5)]).run.run
      (.ofStore (toy.pushStore [1]))).1 = some (.ok 1) ∧
    toy.pushStore [1] metaKey = some (be64 1) ∧ toy.pushStore [1] (leafKey 0) = some [1] ∧
    ((toy.batchPushWithData [] [(leafKey 0, [9]), (metaKey, be64 5)]).run.run
      (.ofStore (toy.pushStore [1]))).2.kv (leafKey 0) = some [9] ∧
    ((toy.batchPushWithData [] [(leafKey 0, [9]), (metaKey, be64 5)]).run.run
      (.ofStore (toy.pushStore [1]))).2.kv metaKey = some (be64 5) ∧ be64 5 ≠ be64 (1 + 0) :=
  ⟨rfl, rfl, rfl, rfl, rfl, by decide⟩

end SlateDbBackedTree

end CompactLog
