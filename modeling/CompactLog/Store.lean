import CompactLog.Frontier
import CompactLog.Hash
import CompactLog.Io

/-! The store the writer maintains over the items `D`: each tree key holds what RFC 6962 says of
`D` and its prefixes, and one append takes the store over `D` to that over `D ++ [d]`. -/

namespace CompactLog

section Canonical

variable {T : Type} (H : Hasher) (C : LeafCodec T)

/-- The hash of node `x` in the tree over the first `n` items of `D`: `MTH` of the leaves below
it, cut at `n`. -/
def nodeHash (D : List T) (n x : Nat) : Bytes :=
  mth H C (slice D (truncRange x n).1 (truncRange x n).2)

/-- The puts of the hashes at size `n` of the nodes `xs`, each under its node and its versioned
key. -/
def nodeWrites (D : List T) (n : Nat) (xs : List Nat) : WriteBatch :=
  xs.flatMap fun x => [(nodeKey x, nodeHash H C D n x), (versionedNodeKey x n, nodeHash H C D n x)]

/-- The puts of the append of leaf `n - 1` with bytes `leafBytes`, as the writer orders them: the
leaf, then each node of the walk. -/
def appendWrites (D : List T) (n : Nat) (leafBytes : Bytes) : WriteBatch :=
  (leafKey (n - 1), leafBytes) :: nodeWrites H C D n (walk n)

end Canonical

section AppendWrites

variable {T : Type} {H : Hasher} {C : LeafCodec T} {D : List T} {n : Nat} {bytes : Bytes}

theorem mem_appendWrites {kv : Bytes × Bytes} :
    kv ∈ appendWrites H C D n bytes ↔ kv = (leafKey (n - 1), bytes) ∨
      ∃ y ∈ walk n, kv = (nodeKey y, nodeHash H C D n y) ∨
        kv = (versionedNodeKey y n, nodeHash H C D n y) := by
  simp [appendWrites, nodeWrites, List.mem_flatMap]

theorem apply_appendWrites_of_parseKey (s : Store) {key : Bytes}
    (h : parseKey key = none ∨ parseKey key = some .meta) :
    s.apply (appendWrites H C D n bytes) key = s key := by
  refine Store.apply_of_forall_ne _ _ fun kv hkv he => ?_
  rcases mem_appendWrites.mp hkv with rfl | ⟨y, hy, rfl | rfl⟩ <;> subst he <;>
    simp [parseKey_leafKey, parseKey_nodeKey, parseKey_versionedNodeKey] at h

variable (s : Store) (hn : 1 ≤ n) (hn' : n ≤ 2 ^ 63)
include hn hn'

theorem apply_appendWrites_leafKey {i : Nat} (hi : i < 2 ^ 64) :
    s.apply (appendWrites H C D n bytes) (leafKey i) =
      if i = n - 1 then some bytes else s (leafKey i) := by
  split_ifs with h
  · subst h
    refine Store.apply_of_mem _ _ (mem_appendWrites.mpr (.inl rfl)) fun kv hkv he => ?_
    rcases mem_appendWrites.mp hkv with rfl | ⟨y, -, rfl | rfl⟩ <;> simp_all
  · refine Store.apply_of_forall_ne _ _ fun kv hkv he => ?_
    rcases mem_appendWrites.mp hkv with rfl | ⟨y, -, rfl | rfl⟩
    · simp only [leafKey_inj, Nat.mod_eq_of_lt hi, Nat.mod_eq_of_lt (by omega : n - 1 < 2 ^ 64)] at he
      exact h he.symm
    all_goals simp at he

theorem apply_appendWrites_nodeKey {x : Nat} (hx : x < 2 ^ 64) :
    s.apply (appendWrites H C D n bytes) (nodeKey x) =
      if x ∈ walk n then some (nodeHash H C D n x) else s (nodeKey x) := by
  have hw : ∀ y ∈ walk n, nodeKey y = nodeKey x → y = x := fun y hy he => by
    have := walk_le hn hy
    rwa [nodeKey_inj, Nat.mod_eq_of_lt hx, Nat.mod_eq_of_lt (by omega : y < 2 ^ 64)] at he
  split_ifs with h
  · refine Store.apply_of_mem _ _ (mem_appendWrites.mpr (.inr ⟨x, h, .inl rfl⟩)) fun kv hkv he => ?_
    rcases mem_appendWrites.mp hkv with rfl | ⟨y, hy, rfl | rfl⟩
    · simp at he
    · rw [hw y hy he]
    · simp at he
  · refine Store.apply_of_forall_ne _ _ fun kv hkv he => ?_
    rcases mem_appendWrites.mp hkv with rfl | ⟨y, hy, rfl | rfl⟩
    · simp at he
    · exact h (hw y hy he ▸ hy)
    · simp at he

theorem apply_appendWrites_versionedNodeKey {x v : Nat} (hx : x < 2 ^ 64) (hv : v < 2 ^ 64) :
    s.apply (appendWrites H C D n bytes) (versionedNodeKey x v) =
      if v = n ∧ x ∈ walk n then some (nodeHash H C D n x) else s (versionedNodeKey x v) := by
  have hw : ∀ y ∈ walk n, versionedNodeKey y n = versionedNodeKey x v → y = x ∧ n = v :=
    fun y hy he => by
      have := walk_le hn hy
      rwa [versionedNodeKey_inj, Nat.mod_eq_of_lt hx, Nat.mod_eq_of_lt hv,
        Nat.mod_eq_of_lt (by omega : y < 2 ^ 64), Nat.mod_eq_of_lt (by omega : n < 2 ^ 64)] at he
  split_ifs with h
  · obtain ⟨rfl, h⟩ := h
    refine Store.apply_of_mem _ _ (mem_appendWrites.mpr (.inr ⟨x, h, .inr rfl⟩)) fun kv hkv he => ?_
    rcases mem_appendWrites.mp hkv with rfl | ⟨y, hy, rfl | rfl⟩
    · simp at he
    · simp at he
    · rw [(hw y hy he).1]
  · refine Store.apply_of_forall_ne _ _ fun kv hkv he => ?_
    rcases mem_appendWrites.mp hkv with rfl | ⟨y, hy, rfl | rfl⟩
    · simp at he
    · simp at he
    · obtain ⟨rfl, rfl⟩ := hw y hy he
      exact h ⟨rfl, hy⟩

end AppendWrites

section Store

variable {T : Type} (H : Hasher) (C : LeafCodec T)

/-- The store the writer keeps over the items `D`, with `ext` at the keys outside the four tree
namespaces. -/
def treeStore (D : List T) (ext : Store) : Store := fun key =>
  match parseKey key with
  | some .meta => some (be64 D.length)
  | some (.leaf i) => D[i]?.bind fun d => (C.serialize d).toOption
  | some (.node x) => if x + 2 ≤ 2 * D.length then some (nodeHash H C D D.length x) else none
  | some (.vnode x v) =>
    if 1 ≤ v ∧ v ≤ D.length ∧ x ∈ walk v then some (nodeHash H C D v x) else none
  | none => ext key

variable {H C} {D : List T} {ext : Store}

@[simp] theorem treeStore_metaKey : treeStore H C D ext metaKey = some (be64 D.length) := by
  simp [treeStore, parseKey_metaKey]

theorem treeStore_leafKey {i : Nat} (hi : i < 2 ^ 64) :
    treeStore H C D ext (leafKey i) = D[i]?.bind fun d => (C.serialize d).toOption := by
  simp only [treeStore]
  rw [parseKey_leafKey, Nat.mod_eq_of_lt hi]

theorem treeStore_nodeKey {x : Nat} (hx : x < 2 ^ 64) :
    treeStore H C D ext (nodeKey x) =
      if x + 2 ≤ 2 * D.length then some (nodeHash H C D D.length x) else none := by
  simp only [treeStore]
  rw [parseKey_nodeKey, Nat.mod_eq_of_lt hx]

theorem treeStore_versionedNodeKey {x v : Nat} (hx : x < 2 ^ 64) (hv : v < 2 ^ 64) :
    treeStore H C D ext (versionedNodeKey x v) =
      if 1 ≤ v ∧ v ≤ D.length ∧ x ∈ walk v then some (nodeHash H C D v x) else none := by
  simp only [treeStore]
  rw [parseKey_versionedNodeKey, Nat.mod_eq_of_lt hx, Nat.mod_eq_of_lt hv]

theorem treeStore_of_parseKey_none {key : Bytes} (h : parseKey key = none) :
    treeStore H C D ext key = ext key := by
  simp [treeStore, h]

theorem truncRange_snd_le (x n : Nat) : (truncRange x n).2 ≤ n := Nat.min_le_right _ _

theorem treeStore_update_metaKey :
    Function.update (treeStore H C D ext) metaKey (some (be64 D.length)) = treeStore H C D ext := by
  funext key
  by_cases h : key = metaKey
  · subst h; simp
  · simp [h]

theorem treeStore_apply {E : WriteBatch} (hE : ∀ kv ∈ E, parseKey kv.1 = none) :
    (treeStore H C D ext).apply E = treeStore H C D (ext.apply E) := by
  funext key
  rcases hk : parseKey key with _ | k
  · rw [treeStore_of_parseKey_none hk]
    exact Store.apply_congr _ _ (treeStore_of_parseKey_none hk)
  · rw [Store.apply_of_forall_ne _ _ fun kv hkv he => by simpa [he, hk] using hE kv hkv]
    simp only [treeStore, hk]
    cases k <;> rfl

theorem treeStore_nil :
    treeStore H C ([] : List T) (fun _ => none) = Function.update (fun _ => none) metaKey
      (some (be64 0)) := by
  funext key
  rcases hk : parseKey key with _ | (i | x | ⟨x, v⟩ | _)
  · have hne : key ≠ metaKey := by rintro rfl; simp [parseKey_metaKey] at hk
    simp [treeStore, hk, hne]
  · obtain rfl : key = leafKey i := eq_of_parseKey hk
    simp [treeStore, hk]
  · obtain rfl : key = nodeKey x := eq_of_parseKey hk
    simp [treeStore, hk]
  · obtain rfl : key = versionedNodeKey x v := eq_of_parseKey hk
    simp [treeStore, hk]
    omega
  · obtain rfl : key = metaKey := eq_of_parseKey hk
    simp

@[simp] theorem nodeHash_length {n x : Nat} : (nodeHash H C D n x).length = H.outputSize :=
  mth_length _

theorem nodeHash_take {c n x : Nat} (h : n ≤ c) : nodeHash H C (D.take c) n x = nodeHash H C D n x := by
  rw [nodeHash, nodeHash, slice_take_of_le (Nat.le_trans (truncRange_snd_le x n) h)]

theorem nodeHash_succ {c x : Nat} (hx : x + 2 ≤ 2 * (c + 1)) (hw : x ∉ walk (c + 1)) :
    nodeHash H C D c x = nodeHash H C D (c + 1) x := by
  rw [nodeHash, nodeHash, (not_mem_walk_succ hx hw).2]

theorem treeStore_apply_appendWrites {F : List T} {c : Nat} (hc : c < F.length) (hc' : c < 2 ^ 63)
    {bytes : Bytes} (hb : C.serialize F[c] = .ok bytes) (m : Option Bytes) :
    Store.apply (Function.update (treeStore H C (F.take c) ext) metaKey m)
        (appendWrites H C F (c + 1) bytes) =
      Function.update (treeStore H C (F.take (c + 1)) ext) metaKey m := by
  have hl : ∀ k, k ≤ F.length → (F.take k).length = k := fun k hk => by simp; omega
  funext key
  rcases hk : parseKey key with _ | (i | x | ⟨x, v⟩ | _)
  · have hne : key ≠ metaKey := by rintro rfl; simp [parseKey_metaKey] at hk
    rw [apply_appendWrites_of_parseKey _ (.inl hk), Function.update_noteq hne,
      Function.update_noteq hne, treeStore_of_parseKey_none hk, treeStore_of_parseKey_none hk]
  · obtain rfl : key = leafKey i := eq_of_parseKey hk
    have hi := parseKey_leaf_lt hk
    rw [apply_appendWrites_leafKey _ (by omega) (by omega) hi]
    simp only [Function.update_noteq (leafKey_ne_metaKey i), treeStore_leafKey hi,
      Nat.add_sub_cancel]
    split_ifs with h
    · subst h
      simp [List.getElem?_take, List.getElem?_eq_getElem hc, hb, Except.toOption]
    · simp only [List.getElem?_take]
      split_ifs <;> first | rfl | omega
  · obtain rfl : key = nodeKey x := eq_of_parseKey hk
    have hx := parseKey_node_lt hk
    rw [apply_appendWrites_nodeKey _ (by omega) (by omega) hx]
    simp only [Function.update_noteq (nodeKey_ne_metaKey x), treeStore_nodeKey hx,
      hl c (by omega), hl (c + 1) hc]
    by_cases h : x ∈ walk (c + 1)
    · rw [if_pos h, if_pos (walk_le (by omega) h), nodeHash_take le_rfl]
    · rw [if_neg h]
      by_cases h2 : x + 2 ≤ 2 * (c + 1)
      · rw [if_pos (not_mem_walk_succ h2 h).1, if_pos h2, nodeHash_take le_rfl, nodeHash_take le_rfl,
          nodeHash_succ h2 h]
      · rw [if_neg (by omega), if_neg h2]
  · obtain rfl : key = versionedNodeKey x v := eq_of_parseKey hk
    obtain ⟨hx, hv⟩ := parseKey_vnode_lt hk
    rw [apply_appendWrites_versionedNodeKey _ (by omega) (by omega) hx hv]
    simp only [Function.update_noteq (versionedNodeKey_ne_metaKey x v),
      treeStore_versionedNodeKey hx hv, hl c (by omega), hl (c + 1) hc]
    by_cases h : v = c + 1 ∧ x ∈ walk (c + 1)
    · obtain ⟨rfl, h⟩ := h
      rw [if_pos ⟨rfl, h⟩, if_pos ⟨by omega, le_rfl, h⟩, nodeHash_take le_rfl]
    · rw [if_neg h]
      by_cases hv' : v ≤ c
      · by_cases h3 : 1 ≤ v ∧ x ∈ walk v
        · rw [if_pos ⟨h3.1, hv', h3.2⟩, if_pos ⟨h3.1, by omega, h3.2⟩, nodeHash_take hv',
            nodeHash_take (by omega)]
        · rw [if_neg fun h' => h3 ⟨h'.1, h'.2.2⟩, if_neg fun h' => h3 ⟨h'.1, h'.2.2⟩]
      · rw [if_neg (by omega), if_neg fun ⟨_, h2, h3⟩ => h ⟨by omega, by
          obtain rfl : v = c + 1 := by omega
          exact h3⟩]
  · obtain rfl : key = metaKey := eq_of_parseKey hk
    rw [apply_appendWrites_of_parseKey _ (.inr hk)]
    simp

end Store

section NodeHash

variable {T : Type} {H : Hasher} {C : LeafCodec T} {F : List T}

theorem nodeHash_subtreeRoot {n a m : Nat} (h : Subtree 0 n a m) (hn : 1 ≤ n) :
    nodeHash H C F n (subtreeRoot a m) = mth H C (slice F a (a + m)) := by
  rw [nodeHash, truncRange_subtreeRoot h hn]

theorem slice_succ {c : Nat} (hc : c < F.length) : slice F c (c + 1) = [F[c]] := by
  rw [slice, List.drop_eq_getElem_cons hc, Nat.add_sub_cancel_left]
  rfl

theorem nodeHash_leaf {c : Nat} (hc : c < F.length) :
    nodeHash H C F (c + 1) (2 * c) = leafHash H C F[c] := by
  rw [nodeHash, truncRange, leafRange_even]
  simp only [Nat.min_self]
  rw [slice_succ hc, mth_singleton]

theorem nodeHash_parent {n a m : Nat} (h : Subtree 0 n a m) (hm : 2 ≤ m) (hF : n ≤ F.length) :
    nodeHash H C F n (subtreeRoot a m) =
      parentHash H (nodeHash H C F n (subtreeRoot a (split m)))
        (nodeHash H C F n (subtreeRoot (a + split m) (m - split m))) := by
  have hn : 1 ≤ n := by have := h.bounds (by cases h <;> omega); omega
  have hb := h.bounds hn
  have := split_lt hm
  rw [nodeHash_subtreeRoot h hn, nodeHash_subtreeRoot (h.left_child hm) hn,
    nodeHash_subtreeRoot (h.right_child hm) hn, mth_slice_split F hm (by omega),
    show a + split m + (m - split m) = a + m by omega]

theorem OnFrontier.hash_step {n a m f : Nat} (hf : OnFrontier n a m) (hmn : m < n)
    (hF : n ≤ F.length) :
    ∃ a' m', OnFrontier n a' m' ∧ 2 ≤ m' ∧ m < m' ∧
      climb n (f + 1) (subtreeRoot a m) = subtreeRoot a m :: climb n f (subtreeRoot a' m') ∧
      parent (subtreeRoot a m) n = subtreeRoot a' m' ∧
      sibling (subtreeRoot a m) n = subtreeRoot a' (split m') ∧
      isLeft (subtreeRoot a m) n = false ∧ subtreeRoot a' m' ∈ walk n ∧
      parentHash H (nodeHash H C F n (subtreeRoot a' (split m'))) (nodeHash H C F n (subtreeRoot a m)) =
        nodeHash H C F n (subtreeRoot a' m') := by
  obtain ⟨a', m', hf', hlt, ha, hc, hp, hs, hl⟩ := hf.climb_step (f := f) hmn
  have h2 : 2 ≤ m' := by have := hf.1; omega
  have hm : m = m' - split m' := by have := hf.2.1; have := hf'.2.1; omega
  refine ⟨a', m', hf', h2, hlt, hc, hp, hs, hl,
    (mem_walk (by have := hf'.2.1; omega)).mpr ⟨a', m', hf', rfl⟩, ?_⟩
  rw [nodeHash_parent hf'.subtree h2 hF, ha, hm]

end NodeHash

end CompactLog
