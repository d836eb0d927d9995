import CompactLog.Append

/-! `StorageBackedMerkleTree`, the log server's handle on the tree. Each call checks its
arguments, delegates to `SlateDbBackedTree`, and wraps the tree's errors with its own context. -/

namespace CompactLog

/-- Modelled from the spec: `crate::storage::StorageError` (its module is not part of the
source), with the variant this file builds. -/
inductive StorageError where
  | invalidFormat (msg : String)
deriving DecidableEq, Repr

/-- Modelled from the spec: `crate::types::CtError` (its module is not part of the source), with
the variants this file builds. -/
inductive CtError where
  | storage (e : StorageError)
  | badRequest (msg : String)
deriving DecidableEq, Repr

abbrev StorageM := ExceptT CtError Io

/-- `format!("{:?}", e)` of a `SlateDbTreeError`, as its derived `Debug` prints it. -/
def SlateDbTreeError.debug : SlateDbTreeError → String
  | .dbError e => "DbError(" ++ e.msg ++ ")"
  | .encodingError msg => "EncodingError(" ++ msg.quote ++ ")"
  | .inconsistentState msg => "InconsistentState(" ++ msg.quote ++ ")"

/-- A tree call with its error mapped as every call of this file maps it:
`CtError::Storage(StorageError::InvalidFormat(format!("<context>: <debug of e>")))`. -/
def liftTree {α : Type} (context : String) (p : TreeM α) : StorageM α :=
  ExceptT.adapt (fun e => .storage (.invalidFormat (context ++ ": " ++ e.debug))) p

/-- `Certificate`: the `MerkleTreeLeaf` bytes the log hashes. -/
structure Certificate where
  data : Bytes
deriving DecidableEq, Repr

/-- `Certificate` as the tree uses it: `as_ref` hands its bytes to the hasher, and bincode writes
the `Vec<u8>` that its `Serialize` emits as the length, a little-endian `u64`, then the bytes. -/
def LeafCodec.certificate : LeafCodec Certificate where
  hashInput c := c.data
  serialize c := .ok ((be64 c.data.length).reverse ++ c.data)
  deserialize bs :=
    if 8 ≤ bs.length ∧ fromBe (bs.take 8).reverse ≤ bs.length - 8 then
      .ok ⟨(bs.drop 8).take (fromBe (bs.take 8).reverse)⟩
    else .error "io error: unexpected end of file"

/-- `StorageBackedMerkleTree`: the tree of certificates the log appends to. -/
structure StorageBackedMerkleTree where
  tree : SlateDbBackedTree Certificate

namespace StorageBackedMerkleTree

def toy : StorageBackedMerkleTree := ⟨⟨.toy, .certificate, .readWrite⟩⟩

def new (hasher : Hasher) (codec : LeafCodec Certificate) : StorageM StorageBackedMerkleTree := do
  let tree ← liftTree "Failed to create SlateDbBackedTree" (SlateDbBackedTree.new hasher codec)
  return ⟨tree⟩

variable (s : StorageBackedMerkleTree)

def size : StorageM Nat := liftTree "Failed to get tree size" s.tree.len

def batchPushWithData (certDataVec : List Bytes) (additionalData : WriteBatch) : StorageM Nat :=
  liftTree "Failed to batch push with data"
    (s.tree.batchPushWithData (certDataVec.map Certificate.mk) additionalData)

def root : StorageM RootHash := liftTree "Failed to get root" s.tree.root

def proveInclusionEfficient (treeSize leafIndex : Nat) : StorageM InclusionProof := do
  if leafIndex ≥ treeSize then
    throw (.badRequest "Leaf index out of bounds for requested tree size")
  let currentTreeSize ← s.size
  if treeSize > currentTreeSize then
    throw (.badRequest ("Requested tree size " ++ toString treeSize ++
      " exceeds current tree size " ++ toString currentTreeSize))
  let proof ← liftTree "Failed to prove inclusion" (s.tree.proveInclusionAtSize leafIndex treeSize)
  return proof

def consistencyProofBetweenSizes (oldTreeSize newTreeSize : Nat) : StorageM ConsistencyProof := do
  if oldTreeSize > newTreeSize then
    throw (.badRequest "Old tree size cannot be larger than new tree size")
  if oldTreeSize = newTreeSize then
    return ConsistencyProof.fromDigests []
  if oldTreeSize = 0 then
    throw (.badRequest "Cannot produce consistency proof starting from empty tree")
  let currentTreeSize ← s.size
  if oldTreeSize > currentTreeSize then
    throw (.badRequest ("Old tree size " ++ toString oldTreeSize ++ " exceeds current tree size " ++
      toString currentTreeSize))
  if newTreeSize > currentTreeSize then
    throw (.badRequest ("New tree size " ++ toString newTreeSize ++ " exceeds current tree size " ++
      toString currentTreeSize))
  let proof ← liftTree "Failed to prove consistency"
    (s.tree.proveConsistencyBetween oldTreeSize newTreeSize)
  return proof

end StorageBackedMerkleTree

section Spec

variable {α : Type} {context : String} {p : TreeM α}

theorem liftTree_run (b : Backend) :
    (liftTree context p).run.run b =
      (((p.run.run b).1.map (Except.mapError fun e =>
        .storage (.invalidFormat (context ++ ": " ++ e.debug)))), (p.run.run b).2) := by
  show (p.run >>= fun r => pure (r.mapError _)).run b = _
  rw [Io.run_bind]
  rcases p.run.run b with ⟨_ | _, _⟩ <;> rfl

theorem Yields.liftTree {b : Backend} {a : α} (h : Yields p b a) :
    Yields (liftTree context p) b a := by
  unfold Yields at h ⊢
  rw [liftTree_run, h]
  rfl

theorem ReadsTo.liftTree {view : Nat → Bytes → Except DbError (Option Bytes)} {n : Nat}
    {Q : α → Nat → Prop} (h : ReadsTo p view n Q) : ReadsTo (liftTree context p) view n Q := by
  intro a n' e
  change (p.run >>= fun r => Pure.pure (r.mapError _)).runReads view n = _ at e
  rw [Io.runReads_bind] at e
  rcases e' : p.run.runReads view n with _ | ⟨_ | a', n₁⟩ <;> rw [e'] at e <;> cases e
  exact h _ _ e'

theorem ReadsYield.liftTree {view : Nat → Bytes → Except DbError (Option Bytes)} {n n' : Nat}
    {a : α} (h : ReadsYield p view n a n') : ReadsYield (liftTree context p) view n a n' := by
  change (p.run >>= fun r => Pure.pure (r.mapError _)).runReads view n = _
  rw [Io.runReads_bind, h]
  rfl

theorem certificate_deserialize_encoding (c : Certificate) (rest : Bytes)
    (hc : c.data.length < 2 ^ 64) :
    LeafCodec.certificate.deserialize ((be64 c.data.length).reverse ++ c.data ++ rest) = .ok c := by
  have h8 : ((be64 c.data.length).reverse ++ c.data ++ rest).take 8 = (be64 c.data.length).reverse := by
    rw [List.append_assoc, List.take_left' (by simp)]
  have hd : ((be64 c.data.length).reverse ++ c.data ++ rest).drop 8 = c.data ++ rest := by
    rw [List.append_assoc, List.drop_left' (by simp)]
  simp only [LeafCodec.certificate, h8, hd, List.reverse_reverse, fromBe_be64, Nat.mod_eq_of_lt hc]
  rw [if_pos ⟨by simp, by simp⟩, List.take_left]

theorem certificate_decodes {c : Certificate} {bytes : Bytes} (hc : c.data.length < 2 ^ 64)
    (h : LeafCodec.certificate.serialize c = .ok bytes) :
    LeafCodec.certificate.deserialize bytes = .ok c := by
  cases h
  simpa using certificate_deserialize_encoding c [] hc

/-- bincode's `Vec<u8>` format as the certificate codec reads it: a decode succeeds exactly on an
encoding followed by any bytes, and gives back the certificate encoded. -/
theorem certificate_deserialize_eq_ok {bs : Bytes} {c : Certificate} :
    LeafCodec.certificate.deserialize bs = .ok c ↔
      c.data.length < 2 ^ 64 ∧ ∃ rest, bs = (be64 c.data.length).reverse ++ c.data ++ rest := by
  refine ⟨fun h => ?_, fun ⟨hc, rest, e⟩ => e ▸ certificate_deserialize_encoding c rest hc⟩
  simp only [LeafCodec.certificate] at h
  split_ifs at h with hb
  cases h
  have h8 : (bs.take 8).reverse.length = 8 := by simp; omega
  have hn := fromBe_lt (bs.take 8).reverse
  rw [h8] at hn
  have hlen : ((bs.drop 8).take (fromBe (bs.take 8).reverse)).length =
      fromBe (bs.take 8).reverse := by simp; omega
  refine ⟨by rw [hlen]; exact hn, (bs.drop 8).drop (fromBe (bs.take 8).reverse), ?_⟩
  rw [hlen, be64_fromBe h8, List.reverse_reverse, List.append_assoc, List.take_append_drop,
    List.take_append_drop]

end Spec

end CompactLog
