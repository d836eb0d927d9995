import CompactLog.Io
import CompactLog.Hash

/-! `SlateDbBackedTree`: its handle, its errors, the metadata key, and the operations that
only read: the root, leaf lookup, and the three proof generators. -/

namespace CompactLog

inductive SlateDbTreeError where
  | dbError (e : DbError)
  | encodingError (msg : String)
  | inconsistentState (msg : String)
deriving DecidableEq, Repr

/-- `DbHandle`: a read-write `Db` or a read-only `DbReader`, both over the same backend. -/
inductive DbHandle where
  | readWrite
  | readOnly
deriving DecidableEq, Repr

/-- Fallible requests to SlateDB, the shape of the source's `async fn ... -> Result<_, _>`. -/
abbrev TreeM := ExceptT SlateDbTreeError Io

def TreeM.panic {α : Type} (msg : String) : TreeM α := ExceptT.lift (Io.panic msg)

def DbHandle.get (_ : DbHandle) (key : Bytes) : TreeM (Option Bytes) :=
  ExceptT.mk (.get key fun r => .pure (r.mapError .dbError))

def DbHandle.put : DbHandle → Bytes → Bytes → TreeM Unit
  | .readWrite, key, value => ExceptT.mk (.put key value fun r => .pure (r.mapError .dbError))
  | .readOnly, _, _ => throw (.inconsistentState "Cannot write to read-only database")

def DbHandle.write : DbHandle → WriteBatch → TreeM Unit
  | .readWrite, batch => ExceptT.mk (.write batch fun r => .pure (r.mapError .dbError))
  | .readOnly, _ => throw (.inconsistentState "Cannot write to read-only database")

/-- `SlateDbBackedTree<H, T>`. The node cache is left out: the source only inserts into it. -/
structure SlateDbBackedTree (T : Type) where
  hasher : Hasher
  codec : LeafCodec T
  db : DbHandle

def SlateDbBackedTree.toy : SlateDbBackedTree Nat := ⟨.toy, .byte, .readWrite⟩

/-- ct-merkle's `RootHash`. -/
structure RootHash where
  hash : Bytes
  numLeaves : Nat
deriving DecidableEq, Repr

/-- ct-merkle's `InclusionProof`: the sibling hashes, concatenated. -/
structure InclusionProof where
  proof : Bytes
deriving DecidableEq, Repr

/-- ct-merkle's `ConsistencyProof`: the proof hashes, concatenated. -/
structure ConsistencyProof where
  proof : Bytes
deriving DecidableEq, Repr

def InclusionProof.fromDigests (digests : List Bytes) : InclusionProof := ⟨digests.flatten⟩

def ConsistencyProof.fromDigests (digests : List Bytes) : ConsistencyProof := ⟨digests.flatten⟩

namespace SlateDbBackedTree

variable {T : Type} (t : SlateDbBackedTree T)

def getNumLeaves : TreeM (Option Nat) := do
  match ← t.db.get metaKey with
  | some bytes =>
    if bytes.length = 8 then return some (fromBe bytes)
    else throw (.encodingError "Invalid metadata")
  | none => return none

def setNumLeaves (numLeaves : Nat) : TreeM Unit := t.db.put metaKey (be64 numLeaves)

def len : TreeM Nat := do return (← t.getNumLeaves).getD 0

def isEmpty : TreeM Bool := do return (← t.len) == 0

/-- `new`: a read-write handle; writes `meta = 0` on first use. -/
def new (hasher : Hasher) (codec : LeafCodec T) : TreeM (SlateDbBackedTree T) := do
  let tree : SlateDbBackedTree T := ⟨hasher, codec, .readWrite⟩
  let existingLeaves ← tree.getNumLeaves
  if existingLeaves.isNone then tree.setNumLeaves 0
  return tree

def fromReader (hasher : Hasher) (codec : LeafCodec T) : TreeM (SlateDbBackedTree T) :=
  pure ⟨hasher, codec, .readOnly⟩

/-- The check `bytes.len() == hash.len()` before `copy_from_slice`. -/
def readHash (bytes : Bytes) : TreeM Bytes :=
  if bytes.length = t.hasher.outputSize then pure bytes
  else throw (.encodingError "Invalid hash size")

def getNodeHash (idx : Nat) : TreeM Bytes := do
  match ← t.db.get (nodeKey idx) with
  | some bytes => t.readHash bytes
  | none => throw (.inconsistentState ("Missing node at index " ++ toString idx))

def getNodeHashInternal (idx : Nat) : TreeM Bytes := t.getNodeHash idx

/-- The versioned entry of `idx` at `version`, else the current entry. -/
def getNodeHashAtVersion (idx version : Nat) : TreeM Bytes := do
  match ← t.db.get (versionedNodeKey idx version) with
  | some bytes => t.readHash bytes
  | none => t.getNodeHash idx

def root : TreeM RootHash := do
  let numLeaves ← t.len
  let rootHash ←
    if numLeaves = 0 then pure (t.hasher.digest [])
    else t.getNodeHashInternal (rootIdx numLeaves)
  return ⟨rootHash, numLeaves⟩

def get (idx : Nat) : TreeM (Option T) := do
  match ← t.db.get (leafKey idx) with
  | some bytes =>
    match t.codec.deserialize bytes with
    | .ok leaf => return some leaf
    | .error e => throw (.encodingError e)
  | none => return none

/-- `prove_inclusion`. The parallel reads of `try_join_all` are issued in index order. -/
def proveInclusion (idx : Nat) : TreeM InclusionProof := do
  let numLeaves ← t.len
  if idx ≥ numLeaves then
    throw (.inconsistentState ("Index " ++ toString idx ++ " out of bounds (tree has " ++
      toString numLeaves ++ " leaves)"))
  let idxs := indicesForInclusionProof numLeaves idx
  let siblingHashes ← idxs.mapM t.getNodeHashInternal
  return InclusionProof.fromDigests siblingHashes

def proveInclusionAtSize (idx treeSize : Nat) : TreeM InclusionProof := do
  let currentLeaves ← t.len
  if treeSize > currentLeaves then
    throw (.inconsistentState ("Requested tree size " ++ toString treeSize ++
      " exceeds current tree size " ++ toString currentLeaves))
  if idx ≥ treeSize then
    throw (.inconsistentState ("Index " ++ toString idx ++ " out of bounds for requested tree size "
      ++ toString treeSize))
  let idxs := indicesForInclusionProof treeSize idx
  let siblingHashes ← idxs.mapM fun x => t.getNodeHashAtVersion x treeSize
  return InclusionProof.fromDigests siblingHashes

def proveConsistency (oldSize : Nat) : TreeM ConsistencyProof := do
  let newSize ← t.len
  if oldSize = 0 then
    throw (.inconsistentState "Cannot create consistency proof from empty tree")
  if oldSize ≥ newSize then
    throw (.inconsistentState ("Old size " ++ toString oldSize ++ " must be less than current size "
      ++ toString newSize))
  let numAdditions := newSize - oldSize
  let idxs := indicesForConsistencyProof oldSize numAdditions
  let proofHashes ← idxs.mapM t.getNodeHashInternal
  return ConsistencyProof.fromDigests proofHashes

def proveConsistencyBetween (oldSize newSize : Nat) : TreeM ConsistencyProof := do
  if oldSize = 0 then
    throw (.inconsistentState "Cannot create consistency proof from empty tree")
  if oldSize > newSize then
    throw (.inconsistentState ("Old size " ++ toString oldSize ++
      " must be less than or equal to new size " ++ toString newSize))
  if oldSize = newSize then return ConsistencyProof.fromDigests []
  let currentSize ← t.len
  if newSize > currentSize then
    throw (.inconsistentState ("New size " ++ toString newSize ++ " exceeds current tree size " ++
      toString currentSize))
  let idxs := indicesForConsistencyProof oldSize (newSize - oldSize)
  let proofHashes ← idxs.mapM t.getNodeHashInternal
  return ConsistencyProof.fromDigests proofHashes

end SlateDbBackedTree

section Spec

variable {b : Backend} {s : Store}

theorem DbHandle.get_returns (d : DbHandle) (key : Bytes) :
    Returns (d.get key) b (· = b.kv key) := by
  refine ⟨rfl, fun a h => ?_⟩
  change some ((b.read key).mapError SlateDbTreeError.dbError) = _ at h
  unfold Backend.read at h
  split at h <;> cases h
  rfl

@[simp] theorem DbHandle.get_reads (d : DbHandle) (key : Bytes) : (d.get key).run.reads b = [key] :=
  rfl

@[simp] theorem DbHandle.write_reads (d : DbHandle) (batch : WriteBatch) :
    (d.write batch).run.reads b = [] := by
  cases d with
  | readOnly => rfl
  | readWrite =>
    change (Io.write batch fun r => Io.pure (r.mapError SlateDbTreeError.dbError)).reads b = []
    simp only [Io.reads]
    split <;> rfl

theorem DbHandle.get_yields (d : DbHandle) (key : Bytes) :
    Yields (d.get key) (.ofStore s) (s key) := rfl

theorem DbHandle.write_run (d : DbHandle) (batch : WriteBatch) :
    (d.write batch).run.run b = (some (.ok ()), { b with kv := b.kv.apply batch }) ∨
      ∃ e, (d.write batch).run.run b = (some (.error e), b) := by
  cases d with
  | readOnly => exact .inr ⟨_, rfl⟩
  | readWrite =>
    change (Io.write batch fun r => Io.pure (r.mapError SlateDbTreeError.dbError)).run b = _ ∨
      ∃ e, (Io.write batch fun r => Io.pure (r.mapError SlateDbTreeError.dbError)).run b = _
    rcases hw : b.writeFault with _ | e
    · left; simp only [Io.run, hw]; rfl
    · right; exact ⟨.dbError e, by simp only [Io.run, hw]; rfl⟩

theorem DbHandle.put_run (d : DbHandle) (key value : Bytes) :
    (d.put key value).run.run b = (some (.ok ()), { b with kv := b.kv.set key value }) ∨
      ∃ e, (d.put key value).run.run b = (some (.error e), b) := by
  cases d with
  | readOnly => exact .inr ⟨_, rfl⟩
  | readWrite =>
    change (Io.put key value fun r => Io.pure (r.mapError SlateDbTreeError.dbError)).run b = _ ∨
      ∃ e, (Io.put key value fun r => Io.pure (r.mapError SlateDbTreeError.dbError)).run b = _
    rcases hw : b.writeFault with _ | e
    · left; simp only [Io.run, hw]; rfl
    · right; exact ⟨.dbError e, by simp only [Io.run, hw]; rfl⟩

theorem DbHandle.write_bind_ok {α : Type} (d : DbHandle) (batch : WriteBatch) {f : Unit → TreeM α}
    {r : α} (h : ((d.write batch >>= f).run.run b).1 = some (.ok r)) :
    (d.write batch >>= f).run.run b = (f ()).run.run { b with kv := b.kv.apply batch } := by
  rw [ExceptT.run_bind, Io.run_bind] at h ⊢
  rcases d.write_run batch (b := b) with e | ⟨e', e⟩
  · rw [e]
  · rw [e] at h; cases h

namespace SlateDbBackedTree

variable {T : Type} (t : SlateDbBackedTree T)

theorem getNumLeaves_returns :
    Returns t.getNumLeaves b fun r => match r with
      | some n => n < 2 ^ 64 ∧ b.kv metaKey = some (be64 n)
      | none => b.kv metaKey = none := by
  refine (t.db.get_returns metaKey).bind fun r hr => ?_
  subst hr
  rcases h : b.kv metaKey with _ | bytes
  · exact Returns.pure rfl
  · simp only
    split
    next hl =>
      refine Returns.pure ⟨?_, by rw [be64_fromBe hl]⟩
      rw [← be64_fromBe hl, fromBe_be64]
      exact Nat.mod_lt _ (by norm_num)
    · exact Returns.throw _

theorem len_returns :
    Returns t.len b fun n => n < 2 ^ 64 ∧ (b.kv metaKey = some (be64 n) ∨ b.kv metaKey = none ∧ n = 0) :=
  t.getNumLeaves_returns.bind fun r hr => Returns.pure <| by
    cases r with
    | some n => exact ⟨hr.1, .inl hr.2⟩
    | none => exact ⟨by norm_num, .inr ⟨hr, rfl⟩⟩

theorem len_returns_of {S : Nat} (h : b.kv metaKey = some (be64 S)) (hS : S < 2 ^ 64) :
    Returns t.len b (· = S) :=
  t.len_returns.mono fun n ⟨hn, hm⟩ => by
    rcases hm with hm | ⟨hm, -⟩
    · have := congrArg fromBe (Option.some.inj (h.symm.trans hm))
      rwa [fromBe_be64, fromBe_be64, Nat.mod_eq_of_lt hS, Nat.mod_eq_of_lt hn, eq_comm] at this
    · rw [h] at hm; cases hm

theorem len_reads : t.len.run.reads b = [metaKey] := by
  unfold len getNumLeaves
  rw [reads_bind_of_right, reads_bind_of_right, DbHandle.get_reads]
  · rintro (_ | bytes) b'
    · rfl
    · simp only
      split <;> rfl
  · intro _ _
    rfl

theorem len_yields {S : Nat} (h : s metaKey = some (be64 S)) (hS : S < 2 ^ 64) :
    Yields t.len (.ofStore s) S := by
  have : Yields t.getNumLeaves (.ofStore s) (some S) := by
    refine (t.db.get_yields metaKey).bind ?_
    simp only [h, be64_length, if_true, fromBe_be64, Nat.mod_eq_of_lt hS]
    exact Yields.pure _
  exact this.bind (Yields.pure _)

theorem new_run {H : Hasher} {C : LeafCodec T} {t' : SlateDbBackedTree T} (hb : b.kv = fun _ => none)
    (h : ((new H C).run.run b).1 = some (.ok t')) :
    ((new H C).run.run b).2.kv = Function.update (fun _ => none) metaKey (some (be64 0)) ∧
      t' = ⟨H, C, .readWrite⟩ := by
  unfold new at h ⊢
  obtain ⟨r, hr, e⟩ := (getNumLeaves_returns ⟨H, C, .readWrite⟩).run_bind_ok h
  rw [e] at h ⊢
  obtain rfl : r = none := by
    cases r with
    | none => rfl
    | some n => have h2 := hr.2; simp [hb] at h2
  simp only [Option.isNone_none, if_true] at h ⊢
  change ((setNumLeaves _ 0 >>= fun _ => pure _).run.run b).1 = _ at h
  change ((setNumLeaves _ 0 >>= fun _ => pure _).run.run b).2.kv = _ ∧ _
  rw [ExceptT.run_bind, Io.run_bind] at h ⊢
  rcases DbHandle.readWrite.put_run metaKey (be64 0) (b := b) with e | ⟨_, e⟩ <;>
    simp only [setNumLeaves, e] at h ⊢
  · cases h
    exact ⟨by rw [hb]; rfl, rfl⟩
  · cases h

theorem readHash_returns (bytes : Bytes) :
    Returns (t.readHash bytes) b (fun h => h = bytes ∧ bytes.length = t.hasher.outputSize) := by
  unfold readHash
  split
  · exact Returns.pure ⟨rfl, ‹_›⟩
  · exact Returns.throw _

theorem readHash_yields {bytes : Bytes} (h : bytes.length = t.hasher.outputSize) :
    Yields (t.readHash bytes) b bytes := by
  simp only [readHash, h, if_true]
  exact Yields.pure _

theorem getNodeHash_returns (idx : Nat) :
    Returns (t.getNodeHash idx) b
      (fun h => b.kv (nodeKey idx) = some h ∧ h.length = t.hasher.outputSize) := by
  refine (t.db.get_returns _).bind fun r hr => ?_
  subst hr
  rcases h : b.kv (nodeKey idx) with _ | bytes
  · exact Returns.throw _
  · exact (t.readHash_returns bytes).mono fun _ ⟨e, hl⟩ => by subst e; exact ⟨rfl, hl⟩

theorem getNodeHash_yields {idx : Nat} {hash : Bytes} (h : s (nodeKey idx) = some hash)
    (hl : hash.length = t.hasher.outputSize) : Yields (t.getNodeHash idx) (.ofStore s) hash := by
  refine (t.db.get_yields _).bind ?_
  simp only [h]
  exact t.readHash_yields hl

theorem getNodeHashAtVersion_yields_versioned {idx version : Nat} {hash : Bytes}
    (h : s (versionedNodeKey idx version) = some hash) (hl : hash.length = t.hasher.outputSize) :
    Yields (t.getNodeHashAtVersion idx version) (.ofStore s) hash := by
  refine (t.db.get_yields _).bind ?_
  simp only [h]
  exact t.readHash_yields hl

theorem getNodeHashAtVersion_yields_current {idx version : Nat} {hash : Bytes}
    (h : s (versionedNodeKey idx version) = none) (h' : s (nodeKey idx) = some hash)
    (hl : hash.length = t.hasher.outputSize) :
    Yields (t.getNodeHashAtVersion idx version) (.ofStore s) hash := by
  refine (t.db.get_yields _).bind ?_
  simp only [h]
  exact t.getNodeHash_yields h' hl

end SlateDbBackedTree

end Spec

end CompactLog
