import CompactLog.Tree
import Mathlib.Data.List.Sort

/-! The writer: `batch_push_with_data`, `batch_push`, `push` and `recalculate_path_batch`, each
building one `WriteBatch` and committing it with one `write`; `u64` arithmetic is checked. -/

namespace CompactLog

def u64Max : Nat := 2 ^ 64 - 1

/-- A `u64` sum as a debug build computes it. -/
def checkedAdd (a b : Nat) : TreeM Nat :=
  if a + b ≤ u64Max then pure (a + b) else TreeM.panic "attempt to add with overflow"

/-- A `u64` product as a debug build computes it. -/
def checkedMul (a b : Nat) : TreeM Nat :=
  if a * b ≤ u64Max then pure (a * b) else TreeM.panic "attempt to multiply with overflow"

/-- Modelled from the spec: `InternalIdx::from(LeafIdx)`, leaf `i` is node `2 * i`, a `u64`
product (the index types of ct-merkle are not part of the source). -/
def internalOfLeaf (i : Nat) : TreeM Nat := checkedMul i 2

/-- `BTreeSet::insert`, the set kept as a sorted list without repeats. -/
def btreeInsert (set : List Nat) (x : Nat) : List Nat :=
  if x ∈ set then set else set.orderedInsert (· ≤ ·) x

/-- The loop state of `batch_push_with_data`: `current_num_leaves`, the batch and
`computed_hashes`. -/
structure BatchState where
  currentNumLeaves : Nat
  batch : WriteBatch
  computed : Nat → Option Bytes

/-- The first loop of `batch_push_with_data`: the siblings met on the walks of the new leaves
that lie in the tree before the batch (`sibling_idx < starting_index * 2`). -/
def nodesToPrefetch (startingIndex count : Nat) : TreeM (List Nat) :=
  (List.range count).foldlM (fun set i => do
    let leafPosition ← checkedAdd startingIndex i
    let treeSizeWhenProcessing ← checkedAdd leafPosition 1
    let curIdx ← internalOfLeaf leafPosition
    (climb treeSizeWhenProcessing treeSizeWhenProcessing curIdx).foldlM (fun set cur => do
      let siblingIdx := sibling cur treeSizeWhenProcessing
      let bound ← checkedMul startingIndex 2
      return if siblingIdx < bound then btreeInsert set siblingIdx else set) set) []

/-- `bincode::serialize` of a leaf, its error mapped to `EncodingError`. -/
def encodeLeaf {T : Type} (C : LeafCodec T) (item : T) : TreeM Bytes :=
  match C.serialize item with
  | .ok bytes => pure bytes
  | .error e => throw (.encodingError e)

namespace SlateDbBackedTree

variable {T : Type} (t : SlateDbBackedTree T)

/-- The prefetch read: each listed node whose stored bytes have the hash width. -/
def prefetchNodes (nodesToPrefetch : List Nat) : TreeM (Nat → Option Bytes) := do
  if nodesToPrefetch.isEmpty then return fun _ => none
  let results ← nodesToPrefetch.mapM fun idx => t.db.get (nodeKey idx)
  return (nodesToPrefetch.zip results).foldl (fun prefetched r =>
    match r.2 with
    | some bytes =>
      if bytes.length = t.hasher.outputSize then Function.update prefetched r.1 (some bytes)
      else prefetched
    | none => prefetched) fun _ => none

/-- The hash of `sibling_idx` as the second loop of `batch_push_with_data` finds it: computed in
this batch, past the tree before the batch (the all-zero hash), prefetched, or read. -/
def batchSiblingHash (prefetched computed : Nat → Option Bytes) (currentNumLeaves siblingIdx : Nat) :
    TreeM Bytes :=
  match computed siblingIdx with
  | some hash => pure hash
  | none => do
    let bound ← checkedMul currentNumLeaves 2
    if siblingIdx ≥ bound then return t.hasher.zero
    match prefetched siblingIdx with
    | some hash => return hash
    | none =>
      match ← t.db.get (nodeKey siblingIdx) with
      | some bytes => t.readHash bytes
      | none => return t.hasher.zero

/-- The `while cur_idx != root_idx` loop for one item: each parent is hashed, put under its node
and versioned keys, and recorded as computed. -/
def batchClimb (prefetched : Nat → Option Bytes) (newNumLeaves : Nat) :
    List Nat → Bytes → BatchState → TreeM BatchState
  | [], _, st => pure st
  | cur :: rest, curHash, st => do
    let parentIdx := parent cur newNumLeaves
    let siblingIdx := sibling cur newNumLeaves
    let siblingHash ←
      t.batchSiblingHash prefetched st.computed st.currentNumLeaves siblingIdx
    let parentHash :=
      if isLeft cur newNumLeaves then parentHash t.hasher curHash siblingHash
      else parentHash t.hasher siblingHash curHash
    batchClimb prefetched newNumLeaves rest parentHash
      { st with
        batch := st.batch ++
          [(nodeKey parentIdx, parentHash), (versionedNodeKey parentIdx newNumLeaves, parentHash)]
        computed := Function.update st.computed parentIdx (some parentHash) }

/-- One pass of the second loop of `batch_push_with_data`: the leaf, its hash under both keys,
and its walk to the root of the tree one leaf larger. -/
def batchPushItem (prefetched : Nat → Option Bytes) (st : BatchState) (item : T) :
    TreeM BatchState := do
  let leafBytes ← encodeLeaf t.codec item
  let batch := st.batch ++ [(leafKey st.currentNumLeaves, leafBytes)]
  let newNumLeaves ← checkedAdd st.currentNumLeaves 1
  let curIdx ← internalOfLeaf st.currentNumLeaves
  let leafHash := leafHash t.hasher t.codec item
  let batch := batch ++
    [(nodeKey curIdx, leafHash), (versionedNodeKey curIdx newNumLeaves, leafHash)]
  let computed := Function.update st.computed curIdx (some leafHash)
  let st ← t.batchClimb prefetched newNumLeaves (climb newNumLeaves newNumLeaves curIdx) leafHash
    { st with batch := batch, computed := computed }
  return { st with currentNumLeaves := newNumLeaves }

def batchPushWithData (items : List T) (additionalData : List (Bytes × Bytes)) : TreeM Nat := do
  let startingIndex ← t.len
  if items.isEmpty && additionalData.isEmpty then return startingIndex
  let nodesToPrefetch ← nodesToPrefetch startingIndex items.length
  let prefetched ← t.prefetchNodes nodesToPrefetch
  let st ← items.foldlM (t.batchPushItem prefetched) ⟨startingIndex, [], fun _ => none⟩
  t.db.write (st.batch ++ [(metaKey, be64 st.currentNumLeaves)] ++ additionalData)
  return startingIndex

def batchPush (items : List T) : TreeM Nat := t.batchPushWithData items []

/-- The `sibling` of one pass of `recalculate_path_batch`: computed, or read from its `NODE`
entry, or the all-zero hash when there is none. -/
def pathSiblingHash (computed : Nat → Option Bytes) (siblingIdx : Nat) : TreeM Bytes :=
  match computed siblingIdx with
  | some hash => pure hash
  | none => do
    match ← t.db.get (nodeKey siblingIdx) with
    | some bytes => t.readHash bytes
    | none => pure t.hasher.zero

/-- The loop of `recalculate_path_batch`: the current node's hash must have been computed; the
sibling's is computed or read. -/
def recalculateClimb (numLeaves : Nat) :
    List Nat → WriteBatch → (Nat → Option Bytes) → TreeM WriteBatch
  | [], batch, _ => pure batch
  | cur :: rest, batch, computed => do
    let parentIdx := parent cur numLeaves
    let siblingIdx := sibling cur numLeaves
    let curNode ← match computed cur with
      | some hash => pure hash
      | none => throw (.inconsistentState ("Missing computed hash for node " ++ toString cur))
    let sibling ← t.pathSiblingHash computed siblingIdx
    let parentHash :=
      if isLeft cur numLeaves then parentHash t.hasher curNode sibling
      else parentHash t.hasher sibling curNode
    recalculateClimb numLeaves rest
      (batch ++ [(nodeKey parentIdx, parentHash), (versionedNodeKey parentIdx numLeaves, parentHash)])
      (Function.update computed parentIdx (some parentHash))

def recalculatePathBatch (batch : WriteBatch) (leafIdx : Nat) (leafVal : T) (numLeaves : Nat) :
    TreeM WriteBatch := do
  let curIdx ← internalOfLeaf leafIdx
  let leafHash := leafHash t.hasher t.codec leafVal
  let batch := batch ++
    [(nodeKey curIdx, leafHash), (versionedNodeKey curIdx numLeaves, leafHash)]
  t.recalculateClimb numLeaves (climb numLeaves numLeaves curIdx) batch
    (Function.update (fun _ => none) curIdx (some leafHash))

def push (newVal : T) : TreeM Unit := do
  let numLeaves ← t.len
  if numLeaves ≥ u64Max / 2 then throw (.inconsistentState "Tree is full")
  let leafBytes ← encodeLeaf t.codec newVal
  let newNumLeaves ← checkedAdd numLeaves 1
  let batch ← t.recalculatePathBatch [(leafKey numLeaves, leafBytes)] numLeaves newVal newNumLeaves
  let metaValue ← checkedAdd numLeaves 1
  t.db.write (batch ++ [(metaKey, be64 metaValue)])

end SlateDbBackedTree

section Spec

variable {b : Backend} {s : Store}

theorem mem_btreeInsert {set : List Nat} {x y : Nat} : y ∈ btreeInsert set x ↔ y = x ∨ y ∈ set := by
  unfold btreeInsert
  split_ifs with hx
  · exact ⟨.inr, fun h => h.elim (· ▸ hx) id⟩
  · exact List.mem_orderedInsert _

theorem sorted_btreeInsert {set : List Nat} (h : set.Sorted (· < ·)) (x : Nat) :
    (btreeInsert set x).Sorted (· < ·) := by
  unfold btreeInsert
  split_ifs with hx
  · exact h
  · exact (h.le_of_lt.orderedInsert x set).lt_of_le
      ((List.perm_orderedInsert _ x set).nodup_iff.mpr (List.nodup_cons.mpr ⟨hx, h.nodup⟩))

theorem checkedAdd_returns (x y : Nat) :
    Returns (checkedAdd x y) b (fun r => r = x + y ∧ x + y ≤ u64Max) := by
  unfold checkedAdd
  split
  · exact Returns.pure ⟨rfl, ‹_›⟩
  · exact Returns.panic _

theorem checkedMul_returns (x y : Nat) :
    Returns (checkedMul x y) b (fun r => r = x * y ∧ x * y ≤ u64Max) := by
  unfold checkedMul
  split
  · exact Returns.pure ⟨rfl, ‹_›⟩
  · exact Returns.panic _

theorem internalOfLeaf_returns (i : Nat) :
    Returns (internalOfLeaf i) b (fun r => r = 2 * i ∧ i < 2 ^ 63) :=
  (checkedMul_returns i 2).mono fun r ⟨h, hle⟩ => ⟨by rw [h, Nat.mul_comm], by unfold u64Max at hle; omega⟩

theorem checkedAdd_yields {x y : Nat} (h : x + y ≤ u64Max) : Yields (checkedAdd x y) b (x + y) := by
  simp only [checkedAdd, h, if_true]
  exact Yields.pure _

theorem checkedMul_yields {x y : Nat} (h : x * y ≤ u64Max) : Yields (checkedMul x y) b (x * y) := by
  simp only [checkedMul, h, if_true]
  exact Yields.pure _

theorem checkedMul_panics {x y : Nat} (h : u64Max < x * y) : Panics (checkedMul x y) b := by
  simp only [checkedMul, show ¬ x * y ≤ u64Max by omega, if_false]
  rfl

theorem nodesToPrefetch_panics {S k : Nat} (hS : S < 2 ^ 63) (hk : 2 ^ 63 < S + k) :
    Panics (nodesToPrefetch S k) b := by
  obtain ⟨j, rfl⟩ : ∃ j, k = (2 ^ 63 - S) + (j + 1) := ⟨k - (2 ^ 63 - S) - 1, by omega⟩
  unfold nodesToPrefetch
  rw [List.range_add, List.range_succ_eq_map, List.map_cons, Nat.add_zero]
  refine Panics.foldlM (fun set i hi => ?_) fun set => ?_
  · have hi : i < 2 ^ 63 - S := List.mem_range.mp hi
    refine (checkedAdd_yields ?_).bind_exists ((checkedAdd_yields ?_).bind_exists
      ((checkedMul_yields ?_).bind_exists (Yields.foldlM _ (fun _ _ _ => ?step) set)))
    case step => exact ⟨_, (checkedMul_yields (by unfold u64Max; omega)).bind (Yields.pure _)⟩
    all_goals unfold u64Max; omega
  · exact (checkedAdd_yields (by unfold u64Max; omega)).bind_panics
      ((checkedAdd_yields (by unfold u64Max; omega)).bind_panics
        (checkedMul_panics (by unfold u64Max; omega)).bind)

theorem nodesToPrefetch_yields {S k : Nat} (h : S + k ≤ 2 ^ 63) :
    ∃ P, Yields (nodesToPrefetch S k) b P := by
  unfold nodesToPrefetch
  refine Yields.foldlM _ (fun set i hi => ?_) []
  have hi : i < k := List.mem_range.mp hi
  refine (checkedAdd_yields ?_).bind_exists ((checkedAdd_yields ?_).bind_exists
    ((checkedMul_yields ?_).bind_exists (Yields.foldlM _ (fun _ _ _ => ?step) set)))
  case step => exact ⟨_, (checkedMul_yields (by unfold u64Max; omega)).bind (Yields.pure _)⟩
  all_goals unfold u64Max; omega

theorem encodeLeaf_returns {T : Type} (C : LeafCodec T) (item : T) :
    Returns (encodeLeaf C item) b (fun r => C.serialize item = .ok r) := by
  unfold encodeLeaf
  split
  · exact Returns.pure ‹_›
  · exact Returns.throw _

theorem encodeLeaf_yields {T : Type} {C : LeafCodec T} {item : T} {bytes : Bytes}
    (h : C.serialize item = .ok bytes) : Yields (encodeLeaf C item) b bytes := by
  simp only [encodeLeaf, h]
  exact Yields.pure _

theorem checkedAdd_quiet (x y : Nat) :
    Quiet (checkedAdd x y) b (fun r => r = x + y ∧ x + y ≤ u64Max) :=
  ⟨checkedAdd_returns x y, by unfold checkedAdd; split <;> rfl⟩

theorem checkedMul_quiet (x y : Nat) :
    Quiet (checkedMul x y) b (fun r => r = x * y ∧ x * y ≤ u64Max) :=
  ⟨checkedMul_returns x y, by unfold checkedMul; split <;> rfl⟩

theorem internalOfLeaf_quiet (i : Nat) :
    Quiet (internalOfLeaf i) b (fun r => r = 2 * i ∧ i < 2 ^ 63) :=
  ⟨internalOfLeaf_returns i, (checkedMul_quiet i 2).2⟩

theorem encodeLeaf_quiet {T : Type} (C : LeafCodec T) (item : T) :
    Quiet (encodeLeaf C item) b (fun r => C.serialize item = .ok r) :=
  ⟨encodeLeaf_returns C item, by unfold encodeLeaf; split <;> rfl⟩

theorem nodesToPrefetch_returns (startingIndex count : Nat) :
    Returns (nodesToPrefetch startingIndex count) b (fun _ => True) :=
  Returns.foldlM (fun _ _ => True) _ (fun _ i _ _ _ _ =>
    (checkedAdd_returns _ i).bind fun _ _ => (checkedAdd_returns _ 1).bind fun _ _ =>
      (internalOfLeaf_returns _).bind fun _ _ =>
        Returns.foldlM (fun _ _ => True) _ (fun _ _ _ _ _ _ =>
          (checkedMul_returns _ 2).bind fun _ _ => Returns.pure trivial) trivial) trivial

namespace SlateDbBackedTree

variable {T : Type} (t : SlateDbBackedTree T)

theorem pathSiblingHash_returns (computed : Nat → Option Bytes) (x : Nat) :
    Returns (t.pathSiblingHash computed x) b fun _ => True := by
  unfold pathSiblingHash
  split
  · exact Returns.pure trivial
  · refine (t.db.get_returns _).bind fun r _ => ?_
    split
    · exact (t.readHash_returns _).mono fun _ _ => trivial
    · exact Returns.pure trivial

theorem prefetchNodes_returns (nodesToPrefetch : List Nat) :
    Returns (t.prefetchNodes nodesToPrefetch) b
      (fun prefetched => ∀ y h, prefetched y = some h → b.kv (nodeKey y) = some h) := by
  unfold prefetchNodes
  split
  · exact Returns.pure fun _ _ h => by cases h
  · refine (Returns.mapM (g := fun idx => b.kv (nodeKey idx)) _
      fun idx _ => t.db.get_returns _).bind fun results hr => Returns.pure ?_
    subst hr
    have hz := List.zip_map' id (fun idx => b.kv (nodeKey idx)) (l := nodesToPrefetch)
    rw [List.map_id] at hz
    rw [hz]
    refine List.foldlRecOn (motive := fun m : Nat → Option Bytes =>
      ∀ y h, m y = some h → b.kv (nodeKey y) = some h) _ _ _ (fun _ _ h => Option.noConfusion h)
      fun m hm r hr y h hy => ?_
    obtain ⟨x, -, rfl⟩ := List.mem_map.mp hr
    rcases hx : b.kv (nodeKey x) with _ | bytes <;> simp only [hx] at hy
    · exact hm y h hy
    · split_ifs at hy
      · rw [Function.update_apply] at hy
        split_ifs at hy with e
        · rw [e]; exact hx.trans hy
        · exact hm y h hy
      · exact hm y h hy

theorem batchPushWithData_panics {L : List T} {E : List (Bytes × Bytes)} {S : Nat}
    (hlen : Yields t.len b S) (hS : S < 2 ^ 63) (hk : 2 ^ 63 < S + L.length) :
    Panics (t.batchPushWithData L E) b := by
  unfold batchPushWithData
  refine hlen.bind_panics ?_
  have hL : L.isEmpty = false := List.isEmpty_eq_false_iff_exists_mem.mpr
    (List.exists_mem_of_length_pos (by omega))
  simp only [hL, Bool.false_and, if_false]
  exact (nodesToPrefetch_panics hS hk).bind

end SlateDbBackedTree

end Spec

end CompactLog
