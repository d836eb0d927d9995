import CompactLog.Append
import CompactLog.Store

/-! One append on the store the writer maintains: from the store over `S` items, a batch that
commits leaves the store over all of them, every sibling it reads being RFC 6962's hash. -/

namespace CompactLog

namespace SlateDbBackedTree

variable {T : Type} (t : SlateDbBackedTree T) {b : Backend} {F : List T}

theorem batchSiblingHash_returns {n c x : Nat} {prefetched computed : Nat → Option Bytes}
    (hpf : ∀ y h, prefetched y = some h → b.kv (nodeKey y) = some h) (hx : x < 2 * c)
    (hc : ∀ h, computed x = some h → h = nodeHash t.hasher t.codec F n x)
    (hs : computed x = none → b.kv (nodeKey x) = some (nodeHash t.hasher t.codec F n x)) :
    Returns (t.batchSiblingHash prefetched computed c x) b (· = nodeHash t.hasher t.codec F n x) := by
  unfold batchSiblingHash
  rcases h : computed x with _ | h'
  · refine (checkedMul_returns c 2).bind fun r hr => ?_
    simp only [hr.1, show ¬ (x ≥ c * 2) by omega, if_false, pure_bind]
    rcases hp : prefetched x with _ | h''
    · refine (t.db.get_returns _).bind fun r hr => ?_
      subst hr
      simp only [hs h]
      exact (t.readHash_returns _).mono fun _ h => h.1
    · exact Returns.pure (Option.some.inj ((hpf x h'' hp).symm.trans (hs h)))
  · exact Returns.pure (hc h' h)

/-- At size `n`, the siblings the walk meets: the left child of each frontier subtree, with its
hash computed or in the store. -/
def SiblingsReady (F : List T) (n : Nat) (b : Backend) (computed : Nat → Option Bytes) : Prop :=
  ∀ a m, OnFrontier n a m → 2 ≤ m →
    (∀ h, computed (subtreeRoot a (split m)) = some h →
      h = nodeHash t.hasher t.codec F n (subtreeRoot a (split m))) ∧
    (computed (subtreeRoot a (split m)) = none →
      b.kv (nodeKey (subtreeRoot a (split m))) =
        some (nodeHash t.hasher t.codec F n (subtreeRoot a (split m))))

theorem SiblingsReady.update {n y : Nat} {computed : Nat → Option Bytes} {h : Bytes}
    (hr : t.SiblingsReady F n b computed) (hy : y ∈ walk n) :
    t.SiblingsReady F n b (Function.update computed y (some h)) := by
  intro a m hf hm
  have hne : subtreeRoot a (split m) ≠ y := fun e => (hf.left_child hm).2.1 (e ▸ hy)
  simpa only [Function.update_noteq hne] using hr a m hf hm

theorem batchClimb_returns {n : Nat} {prefetched : Nat → Option Bytes}
    (hpf : ∀ y h, prefetched y = some h → b.kv (nodeKey y) = some h) (hF : n ≤ F.length) :
    ∀ f a m (st : BatchState), OnFrontier n a m → n - m ≤ f → n = st.currentNumLeaves + 1 →
      t.SiblingsReady F n b st.computed →
      Returns (t.batchClimb prefetched n (climb n f (subtreeRoot a m))
        (nodeHash t.hasher t.codec F n (subtreeRoot a m)) st) b fun st' =>
        st'.currentNumLeaves = st.currentNumLeaves ∧
        st'.batch = st.batch ++ nodeWrites t.hasher t.codec F n ((climb n f (subtreeRoot a m)).map (parent · n)) ∧
        ∀ y, st'.computed y = if y ∈ (climb n f (subtreeRoot a m)).map (parent · n) then
          some (nodeHash t.hasher t.codec F n y) else st.computed y := by
  intro f
  induction f with
  | zero =>
    intro a m st hf hfuel _ _
    simp only [climb, List.map_nil]
    exact Returns.pure ⟨rfl, by simp [nodeWrites], fun y => by simp⟩
  | succ f ih =>
    intro a m st hf hfuel hn hr
    by_cases hmn : m < n
    · obtain ⟨a', m', hf', h2, hlt, hc, hp, hs, hl, hx', hph⟩ := hf.hash_step (f := f) hmn hF
      have hbd := subtreeRoot_bounds a' (one_le_split h2)
      have := split_lt h2
      have := hf.2.1
      have := hf'.2.1
      rw [hc]
      simp only [batchClimb, hp, hs, hl, Bool.false_eq_true, if_false]
      refine (t.batchSiblingHash_returns hpf (by omega) (hr a' m' hf' h2).1
        (hr a' m' hf' h2).2).bind fun sh hsh => ?_
      rw [hsh, hph]
      refine (ih a' m' _ hf' (by omega) (by exact hn) (by exact SiblingsReady.update t hr hx')).mono fun st' ⟨h1, h2, h3⟩ => ?_
      refine ⟨h1, by simp [h2, nodeWrites, hp], fun y => ?_⟩
      rw [h3 y, List.map_cons, hp]
      by_cases hy : y = subtreeRoot a' m'
      · subst hy; simp
      · simp [hy, Function.update_noteq hy]
    · obtain ⟨rfl, rfl⟩ := hf.eq_top (by omega)
      rw [hf.climb_top]
      exact Returns.pure ⟨rfl, by simp [nodeWrites], fun y => by simp⟩

/-- The invariant of the second loop of `batch_push_with_data` once the items `[S, c)` of `F` are
processed: the computed hashes are those at size `c`, every node rewritten since size `S` is
computed, and the batch takes the store over `S` items to the store over `c`, `meta` aside. -/
structure BatchInv (F : List T) (S : Nat) (ext : Store) (c : Nat) (st : BatchState) : Prop where
  current : st.currentNumLeaves = c
  sound : ∀ x h, st.computed x = some h → x + 2 ≤ 2 * c ∧ h = nodeHash t.hasher t.codec F c x
  complete : ∀ q x, S < q → q ≤ c → x ∈ walk q → st.computed x ≠ none
  store : (treeStore t.hasher t.codec (F.take S) ext).apply st.batch =
    Function.update (treeStore t.hasher t.codec (F.take c) ext) metaKey (some (be64 S))

variable {S c : Nat} {ext : Store} {st : BatchState}

theorem batchInv_start (hS : S ≤ F.length) : t.BatchInv F S ext S ⟨S, [], fun _ => none⟩ where
  current := rfl
  sound _ _ h := by cases h
  complete _ _ h h' := by omega
  store := by
    rw [Store.apply, List.foldl_nil]
    conv_lhs => rw [← treeStore_update_metaKey]
    simp [hS]

theorem BatchInv.siblingsReady (hinv : t.BatchInv F S ext c st)
    (hb : b.kv = treeStore t.hasher t.codec (F.take S) ext) (hSc : S ≤ c) (hc : c ≤ F.length)
    (hc63 : c < 2 ^ 63) : t.SiblingsReady F (c + 1) b st.computed := by
  intro a m hf hm
  obtain ⟨hfl, hsw, htr⟩ := hf.left_child hm
  have hbd := subtreeRoot_bounds a (one_le_split hm)
  have ha : a + split m ≤ c := by have := hf.2.1; have := split_lt hm; omega
  constructor
  · intro h hs
    obtain ⟨hle, rfl⟩ := hinv.sound _ _ hs
    exact nodeHash_succ (by omega) hsw
  · intro hs
    have haS : a + split m ≤ S := by
      by_contra hlt
      exact hinv.complete (a + split m) _ (by omega) ha
        ((mem_walk (by omega)).mpr ⟨a, split m, hfl, rfl⟩) hs
    have hl : (F.take S).length = S := by simp; omega
    rw [hb, treeStore_nodeKey (by omega), hl, if_pos (by omega), nodeHash_take le_rfl, nodeHash,
      nodeHash, htr, htr, Nat.min_eq_left haS, Nat.min_eq_left (by omega)]

theorem walk_succ (c : Nat) :
    walk (c + 1) = subtreeRoot c 1 :: (climb (c + 1) (c + 1) (subtreeRoot c 1)).map (parent · (c + 1)) := by
  rw [← walk_eq (by omega), Nat.add_sub_cancel, subtreeRoot_of_le_one le_rfl]

theorem batchPushItem_returns {prefetched : Nat → Option Bytes}
    (hpf : ∀ y h, prefetched y = some h → b.kv (nodeKey y) = some h)
    (hb : b.kv = treeStore t.hasher t.codec (F.take S) ext) (hSc : S ≤ c) (hc : c < F.length)
    (hinv : t.BatchInv F S ext c st) :
    Returns (t.batchPushItem prefetched st F[c]) b fun st' =>
      t.BatchInv F S ext (c + 1) st' ∧ c < 2 ^ 63 ∧ ∃ bytes, t.codec.serialize F[c] = .ok bytes := by
  unfold batchPushItem
  refine (encodeLeaf_returns _ _).bind fun bytes hbytes => ?_
  refine (checkedAdd_returns _ 1).bind fun n hn => ?_
  refine (internalOfLeaf_returns _).bind fun x hx => ?_
  rw [hinv.current] at hn hx
  obtain ⟨rfl, -⟩ := hn
  obtain ⟨rfl, hc63⟩ := hx
  have hw := walk_succ c
  have hmem : subtreeRoot c 1 ∈ walk (c + 1) := by rw [hw]; exact List.mem_cons_self _ _
  simp only [hinv.current, ← nodeHash_leaf hc, ← subtreeRoot_of_le_one (le_refl 1)]
  refine (t.batchClimb_returns hpf (by omega) (c + 1) c 1 _ ⟨le_rfl, rfl, by simp [width]⟩
    (by omega) (by exact rfl)
    (by exact SiblingsReady.update t (BatchInv.siblingsReady t hinv hb hSc hc.le hc63) hmem)).bind
    fun st' ⟨_, h2, h3⟩ => Returns.pure ⟨?_, hc63, bytes, hbytes⟩
  simp only at h2 h3
  set sr := subtreeRoot c 1
  set ps := (climb (c + 1) (c + 1) sr).map (parent · (c + 1))
  have hwalk : ∀ y, y ∈ walk (c + 1) ↔ y = sr ∨ y ∈ ps := fun y => by rw [hw]; simp
  refine ⟨rfl, fun y h hy => ?_, fun q y hq hq' hy => ?_, ?_⟩
  · change st'.computed y = some h at hy
    rw [h3] at hy
    by_cases hyw : y ∈ walk (c + 1)
    · refine ⟨walk_le (by omega) hyw, ?_⟩
      split_ifs at hy with hp
      · exact (Option.some.inj hy).symm
      · obtain rfl : y = sr := ((hwalk y).mp hyw).resolve_right hp
        rw [Function.update_same] at hy
        exact (Option.some.inj hy).symm
    · have hne : y ≠ sr := fun e => hyw ((hwalk y).mpr (.inl e))
      have hnp : y ∉ ps := fun e => hyw ((hwalk y).mpr (.inr e))
      rw [if_neg hnp, Function.update_noteq hne] at hy
      obtain ⟨hle, rfl⟩ := hinv.sound y h hy
      exact ⟨by omega, nodeHash_succ (by omega) hyw⟩
  · change st'.computed y ≠ none
    rw [h3]
    split_ifs with hp
    · simp
    · by_cases hne : y = sr
      · subst hne; simp
      · rw [Function.update_noteq hne]
        by_cases hqc : q ≤ c
        · exact hinv.complete q y hq hqc hy
        · obtain rfl : q = c + 1 := by omega
          rcases (hwalk y).mp hy with h | h <;> contradiction
  · have hbatch : st'.batch = st.batch ++ appendWrites t.hasher t.codec F (c + 1) bytes := by
      rw [h2]; simp [appendWrites, hw, nodeWrites]
    change (treeStore t.hasher t.codec (F.take S) ext).apply st'.batch = _
    rw [hbatch, Store.apply_append, hinv.store, treeStore_apply_appendWrites hc hc63 hbytes]

theorem batchPushItems_returns {D L : List T} {prefetched : Nat → Option Bytes}
    (hpf : ∀ y h, prefetched y = some h → b.kv (nodeKey y) = some h)
    (hb : b.kv = treeStore t.hasher t.codec D ext) (hD : D.length ≤ 2 ^ 63) :
    Returns (L.foldlM (t.batchPushItem prefetched) ⟨D.length, [], fun _ => none⟩) b fun st =>
      t.BatchInv (D ++ L) D.length ext (D ++ L).length st ∧ (D ++ L).length ≤ 2 ^ 63 ∧
        ∀ d ∈ L, ∃ bytes, t.codec.serialize d = .ok bytes := by
  have hF : (D ++ L).take D.length = D := List.take_left' rfl
  refine (Returns.foldlM (fun pre st => t.BatchInv (D ++ L) D.length ext (D.length + pre.length) st ∧
      D.length + pre.length ≤ 2 ^ 63 ∧ ∀ d ∈ pre, ∃ bytes, t.codec.serialize d = .ok bytes) L
      (fun pre x rest st he ⟨hinv, hle, hser⟩ => ?_) ⟨t.batchInv_start (by simp), hD, by simp⟩).mono
    fun st ⟨h1, h2, h3⟩ => ⟨by simpa using h1, by simpa using h2, h3⟩
  have hc : D.length + pre.length < (D ++ L).length := by rw [← he]; simp
  have hx : (D ++ L)[D.length + pre.length] = x := by
    subst he
    simp [List.getElem_append_right]
  rw [← hx]
  refine (t.batchPushItem_returns hpf (hF.symm ▸ hb) (by omega) hc hinv).mono
    fun st' ⟨hinv', h63, hser'⟩ => ⟨by simpa [Nat.add_assoc] using hinv', by simp; omega, ?_⟩
  intro d hd
  rcases List.mem_append.mp hd with hd | hd
  · exact hser d hd
  · rw [List.mem_singleton.mp hd]; exact hser'

theorem batchPushWithData_run {D L : List T} {E : List (Bytes × Bytes)} {ext : Store} {r : Nat}
    (hb : b.kv = treeStore t.hasher t.codec D ext) (hD : D.length ≤ 2 ^ 63)
    (hE : ∀ kv ∈ E, parseKey kv.1 = none)
    (h : ((t.batchPushWithData L E).run.run b).1 = some (.ok r)) :
    ((t.batchPushWithData L E).run.run b).2.kv = treeStore t.hasher t.codec (D ++ L) (ext.apply E) ∧
      r = D.length ∧ (D ++ L).length ≤ 2 ^ 63 ∧ ∀ d ∈ L, ∃ bytes, t.codec.serialize d = .ok bytes := by
  have hlen : Returns t.len b (· = D.length) :=
    t.len_returns_of (by rw [hb, treeStore_metaKey]) (by omega)
  unfold batchPushWithData at h ⊢
  obtain ⟨_, rfl, e⟩ := hlen.run_bind_ok h
  rw [e] at h ⊢
  simp only [pure_bind] at h ⊢
  by_cases hemp : (L.isEmpty && E.isEmpty) = true
  · rw [if_pos hemp] at h ⊢
    rw [Bool.and_eq_true, List.isEmpty_iff, List.isEmpty_iff] at hemp
    obtain ⟨rfl, rfl⟩ := hemp
    cases h
    simp only [List.append_nil, Store.apply, List.foldl_nil, true_and]
    exact ⟨hb, hD, by simp⟩
  · rw [if_neg hemp] at h ⊢
    obtain ⟨_, -, e⟩ := (nodesToPrefetch_returns (b := b) _ _).run_bind_ok h
    rw [e] at h ⊢
    obtain ⟨pf, hpf, e⟩ := (t.prefetchNodes_returns _).run_bind_ok h
    rw [e] at h ⊢
    obtain ⟨st, ⟨hinv, h63, hser⟩, e⟩ := (t.batchPushItems_returns (L := L) hpf hb hD).run_bind_ok h
    rw [e] at h ⊢
    have e := t.db.write_bind_ok _ h
    rw [e] at h ⊢
    cases h
    refine ⟨?_, rfl, h63, hser⟩
    have hst := hinv.store
    rw [List.take_left' rfl, List.take_length] at hst
    show Store.apply b.kv _ = _
    rw [Store.apply_append, Store.apply_append, hb, hst, hinv.current, ← treeStore_apply hE]
    simp only [Store.apply, List.foldl_cons, List.foldl_nil, Store.set, Function.update_idem,
      treeStore_update_metaKey]

theorem SiblingsReady.pathSiblingHash_returns {n a m : Nat} {computed : Nat → Option Bytes}
    (hr : t.SiblingsReady F n b computed) (hf : OnFrontier n a m) (hm : 2 ≤ m) :
    Returns (t.pathSiblingHash computed (subtreeRoot a (split m))) b
      (· = nodeHash t.hasher t.codec F n (subtreeRoot a (split m))) := by
  unfold pathSiblingHash
  rcases hcs : computed (subtreeRoot a (split m)) with _ | sh
  · refine (t.db.get_returns _).bind fun r hr' => ?_
    simp only [hr', (hr a m hf hm).2 hcs]
    exact (t.readHash_returns _).mono fun _ h => h.1
  · exact Returns.pure ((hr a m hf hm).1 sh hcs)

theorem recalculateClimb_returns {n : Nat} (hF : n ≤ F.length) :
    ∀ f a m (batch : WriteBatch) (computed : Nat → Option Bytes), OnFrontier n a m → n - m ≤ f →
      computed (subtreeRoot a m) = some (nodeHash t.hasher t.codec F n (subtreeRoot a m)) →
      t.SiblingsReady F n b computed →
      Returns (t.recalculateClimb n (climb n f (subtreeRoot a m)) batch computed) b
        (· = batch ++ nodeWrites t.hasher t.codec F n ((climb n f (subtreeRoot a m)).map (parent · n))) := by
  intro f
  induction f with
  | zero =>
    intro a m batch computed _ _ _ _
    simp only [climb, List.map_nil]
    exact Returns.pure (by simp [nodeWrites])
  | succ f ih =>
    intro a m batch computed hf hfuel hcur hr
    by_cases hmn : m < n
    · obtain ⟨a', m', hf', h2, hlt, hc, hp, hs, hl, hx', hph⟩ := hf.hash_step (f := f) hmn hF
      rw [hc]
      have hrec : Returns (t.recalculateClimb n (climb n f (subtreeRoot a' m'))
          (batch ++ [(nodeKey (subtreeRoot a' m'), nodeHash t.hasher t.codec F n (subtreeRoot a' m')),
            (versionedNodeKey (subtreeRoot a' m') n, nodeHash t.hasher t.codec F n (subtreeRoot a' m'))])
          (Function.update computed (subtreeRoot a' m')
            (some (nodeHash t.hasher t.codec F n (subtreeRoot a' m'))))) b
          (· = batch ++ nodeWrites t.hasher t.codec F n
            ((subtreeRoot a m :: climb n f (subtreeRoot a' m')).map (parent · n))) :=
        (ih a' m' _ _ hf' (by omega) (by simp) (SiblingsReady.update t hr hx')).mono
          fun _ h => by rw [h]; simp [nodeWrites, hp]
      simp only [recalculateClimb, hp, hs, hl, hcur, Bool.false_eq_true, if_false, pure_bind]
      refine (SiblingsReady.pathSiblingHash_returns t hr hf' h2).bind fun sh hsh => ?_
      rwa [hsh, hph]
    · obtain ⟨rfl, rfl⟩ := hf.eq_top (by omega)
      rw [hf.climb_top]
      exact Returns.pure (by simp [nodeWrites])

theorem recalculatePathBatch_returns {D : List T} {ext : Store} {d : T} (bytes : Bytes)
    (hb : b.kv = treeStore t.hasher t.codec D ext) (hD : D.length < 2 ^ 63) :
    Returns (t.recalculatePathBatch [(leafKey D.length, bytes)] D.length d (D.length + 1)) b
      (· = appendWrites t.hasher t.codec (D ++ [d]) (D.length + 1) bytes) := by
  unfold recalculatePathBatch
  refine (internalOfLeaf_returns _).bind fun x hx => ?_
  obtain ⟨rfl, -⟩ := hx
  have hc : D.length < (D ++ [d]).length := by simp
  have hd : (D ++ [d])[D.length] = d := by simp
  have hw := walk_succ D.length
  have hmem : subtreeRoot D.length 1 ∈ walk (D.length + 1) := by rw [hw]; exact List.mem_cons_self _ _
  have hinv : t.BatchInv (D ++ [d]) D.length ext D.length ⟨D.length, [], fun _ => none⟩ :=
    t.batchInv_start (by simp)
  have hr := BatchInv.siblingsReady t hinv (by simpa using hb) le_rfl hc.le hD
  rw [← hd, ← nodeHash_leaf hc, ← subtreeRoot_of_le_one (le_refl 1)]
  refine (t.recalculateClimb_returns (by simp) (D.length + 1) D.length 1 _ _
    ⟨le_rfl, rfl, by simp [width]⟩ (by omega) (by simp)
    (SiblingsReady.update t hr hmem)).mono fun batch h => ?_
  rw [h]
  simp [appendWrites, hw, nodeWrites]

theorem push_run {D : List T} {ext : Store} {d : T}
    (hb : b.kv = treeStore t.hasher t.codec D ext) (hD : D.length ≤ 2 ^ 63)
    (h : ((t.push d).run.run b).1 = some (.ok ())) :
    ((t.push d).run.run b).2.kv = treeStore t.hasher t.codec (D ++ [d]) ext ∧
      (D ++ [d]).length ≤ 2 ^ 63 ∧ ∃ bytes, t.codec.serialize d = .ok bytes := by
  have hlen : Returns t.len b (· = D.length) :=
    t.len_returns_of (by rw [hb, treeStore_metaKey]) (by omega)
  unfold push at h ⊢
  obtain ⟨_, rfl, e⟩ := hlen.run_bind_ok h
  rw [e] at h ⊢
  by_cases hfull : D.length ≥ u64Max / 2
  · rw [if_pos hfull] at h
    cases h
  rw [if_neg hfull] at h ⊢
  simp only [pure_bind] at h ⊢
  have h63 : D.length < 2 ^ 63 := by unfold u64Max at hfull; omega
  obtain ⟨bytes, hbytes, e⟩ := (encodeLeaf_returns t.codec d).run_bind_ok h
  rw [e] at h ⊢
  obtain ⟨_, ⟨rfl, -⟩, e⟩ := (checkedAdd_returns D.length 1).run_bind_ok h
  rw [e] at h ⊢
  obtain ⟨_, rfl, e⟩ := (t.recalculatePathBatch_returns bytes hb h63).run_bind_ok h
  rw [e] at h ⊢
  obtain ⟨_, ⟨rfl, -⟩, e⟩ := (checkedAdd_returns D.length 1).run_bind_ok h
  rw [e] at h ⊢
  refine ⟨?_, by simp; omega, bytes, hbytes⟩
  change ((t.db.write _).run.run b).2.kv = _
  rcases t.db.write_run _ (b := b) with e | ⟨_, e⟩ <;> rw [e] at h ⊢
  · have hc : D.length < (D ++ [d]).length := by simp
    have hser : t.codec.serialize (D ++ [d])[D.length] = .ok bytes := by simpa using hbytes
    have happ := @treeStore_apply_appendWrites _ t.hasher _ ext _ _ hc h63 _ hser (some (be64 D.length))
    rw [List.take_left' rfl, treeStore_update_metaKey, List.take_of_length_le (by simp)] at happ
    show Store.apply b.kv _ = _
    rw [Store.apply_append, hb, happ, show D.length + 1 = (D ++ [d]).length by simp]
    simp only [Store.apply, List.foldl_cons, List.foldl_nil, Store.set, Function.update_idem,
      treeStore_update_metaKey]
  · cases h

end SlateDbBackedTree

end CompactLog
