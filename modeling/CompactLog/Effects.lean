import CompactLog.Storage

/-! What the readers never do: every read call of the tree and of the server, and every call on
a `from_reader` handle, sends no put and no write, so it leaves every backend as it was. -/

namespace CompactLog

/-- `x` sends no put and no write, whatever its reads return. -/
inductive Io.ReadOnly {α : Type} : Io α → Prop
  | pure (a : α) : Io.ReadOnly (.pure a)
  | get (key : Bytes) {next : Except DbError (Option Bytes) → Io α}
      (h : ∀ r, Io.ReadOnly (next r)) : Io.ReadOnly (.get key next)
  | panic (msg : String) : Io.ReadOnly (.panic msg)

section Logic

variable {ε α β γ : Type}

theorem Io.ReadOnly.bind {x : Io α} {f : α → Io β} (hx : x.ReadOnly) (hf : ∀ a, (f a).ReadOnly) :
    (x >>= f).ReadOnly := by
  induction hx with
  | pure a => exact hf a
  | get key _ ih => exact .get key ih
  | panic msg => exact .panic msg

theorem Io.ReadOnly.run_snd {x : Io α} (h : x.ReadOnly) (b : Backend) : (x.run b).2 = b := by
  induction h with
  | pure a => rfl
  | get key _ ih => exact ih _
  | panic msg => rfl

def ReadsOnly (p : ExceptT ε Io α) : Prop := p.run.ReadOnly

theorem ReadsOnly.pure (a : α) : ReadsOnly (pure a : ExceptT ε Io α) := Io.ReadOnly.pure _

theorem ReadsOnly.throw (e : ε) : ReadsOnly (throw e : ExceptT ε Io α) := Io.ReadOnly.pure _

theorem ReadsOnly.throw_bind (e : ε) (f : α → ExceptT ε Io β) :
    ReadsOnly ((MonadExcept.throw e : ExceptT ε Io α) >>= f) :=
  Io.ReadOnly.pure _

theorem ReadsOnly.ite {c : Prop} [Decidable c] {p q : ExceptT ε Io α} (hp : ReadsOnly p)
    (hq : ReadsOnly q) : ReadsOnly (if c then p else q) := by
  split
  · exact hp
  · exact hq

theorem ReadsOnly.panic (msg : String) : ReadsOnly (ExceptT.lift (Io.panic msg) : ExceptT ε Io α) :=
  Io.ReadOnly.panic msg

theorem ReadsOnly.bind {x : ExceptT ε Io α} {f : α → ExceptT ε Io β} (hx : ReadsOnly x)
    (hf : ∀ a, ReadsOnly (f a)) : ReadsOnly (x >>= f) := by
  unfold ReadsOnly at *
  rw [ExceptT.run_bind]
  refine hx.bind fun r => ?_
  cases r with
  | error e => exact Io.ReadOnly.pure _
  | ok a => exact hf a

theorem ReadsOnly.mapM {f : γ → ExceptT ε Io α} (hf : ∀ x, ReadsOnly (f x)) :
    ∀ xs : List γ, ReadsOnly (xs.mapM f)
  | [] => ReadsOnly.pure _
  | x :: xs => by
    rw [List.mapM_cons]
    exact (hf x).bind fun _ => (ReadsOnly.mapM hf xs).bind fun _ => ReadsOnly.pure _

theorem ReadsOnly.foldlM {f : α → γ → ExceptT ε Io α} (hf : ∀ acc x, ReadsOnly (f acc x)) :
    ∀ (xs : List γ) (init : α), ReadsOnly (xs.foldlM f init)
  | [], _ => ReadsOnly.pure _
  | x :: xs, init => by
    rw [List.foldlM_cons]
    exact (hf init x).bind fun acc => ReadsOnly.foldlM hf xs acc

theorem ReadsOnly.returns {p : ExceptT ε Io α} (h : ReadsOnly p) (b : Backend) :
    Returns p b fun _ => True :=
  ⟨Io.ReadOnly.run_snd h b, fun _ _ => trivial⟩

end Logic

theorem DbHandle.get_readsOnly (d : DbHandle) (key : Bytes) : ReadsOnly (d.get key) :=
  Io.ReadOnly.get key fun _ => Io.ReadOnly.pure _

theorem DbHandle.write_readsOnly (batch : WriteBatch) : ReadsOnly (DbHandle.readOnly.write batch) :=
  ReadsOnly.throw _

theorem liftTree_readsOnly {α : Type} {p : TreeM α} (context : String) (h : ReadsOnly p) :
    ReadsOnly (liftTree context p) :=
  Io.ReadOnly.bind h fun _ => Io.ReadOnly.pure _

namespace SlateDbBackedTree

variable {T : Type} (t : SlateDbBackedTree T)

theorem getNumLeaves_readsOnly : ReadsOnly t.getNumLeaves := by
  refine (t.db.get_readsOnly _).bind fun r => ?_
  rcases r with _ | bytes
  · exact ReadsOnly.pure _
  · exact .ite (.pure _) (.throw _)

theorem len_readsOnly : ReadsOnly t.len := t.getNumLeaves_readsOnly.bind fun _ => ReadsOnly.pure _

theorem readHash_readsOnly (bytes : Bytes) : ReadsOnly (t.readHash bytes) := .ite (.pure _) (.throw _)

theorem getNodeHash_readsOnly (idx : Nat) : ReadsOnly (t.getNodeHash idx) := by
  refine (t.db.get_readsOnly _).bind fun r => ?_
  rcases r with _ | bytes
  · exact ReadsOnly.throw _
  · exact t.readHash_readsOnly bytes

theorem getNodeHashAtVersion_readsOnly (idx version : Nat) :
    ReadsOnly (t.getNodeHashAtVersion idx version) := by
  refine (t.db.get_readsOnly _).bind fun r => ?_
  rcases r with _ | bytes
  · exact t.getNodeHash_readsOnly idx
  · exact t.readHash_readsOnly bytes

theorem root_readsOnly : ReadsOnly t.root :=
  t.len_readsOnly.bind fun _ => .ite ((ReadsOnly.pure _).bind fun _ => .pure _)
    ((t.getNodeHash_readsOnly _).bind fun _ => .pure _)

theorem get_readsOnly (idx : Nat) : ReadsOnly (t.get idx) := by
  refine (t.db.get_readsOnly _).bind fun r => ?_
  rcases r with _ | bytes
  · exact ReadsOnly.pure _
  · dsimp only
    split
    · exact ReadsOnly.pure _
    · exact ReadsOnly.throw _

theorem proveInclusion_readsOnly (idx : Nat) : ReadsOnly (t.proveInclusion idx) :=
  t.len_readsOnly.bind fun _ => .ite (.throw_bind _ _) ((ReadsOnly.pure _).bind fun _ =>
    (ReadsOnly.mapM t.getNodeHash_readsOnly _).bind fun _ => .pure _)

theorem proveInclusionAtSize_readsOnly (idx treeSize : Nat) :
    ReadsOnly (t.proveInclusionAtSize idx treeSize) :=
  t.len_readsOnly.bind fun _ => .ite (.throw_bind _ _) ((ReadsOnly.pure _).bind fun _ =>
    .ite (.throw_bind _ _) ((ReadsOnly.pure _).bind fun _ =>
      (ReadsOnly.mapM (fun x => t.getNodeHashAtVersion_readsOnly x treeSize) _).bind fun _ => .pure _))

theorem proveConsistency_readsOnly (oldSize : Nat) : ReadsOnly (t.proveConsistency oldSize) :=
  t.len_readsOnly.bind fun _ => .ite (.throw_bind _ _) ((ReadsOnly.pure _).bind fun _ =>
    .ite (.throw_bind _ _) ((ReadsOnly.pure _).bind fun _ =>
      (ReadsOnly.mapM t.getNodeHash_readsOnly _).bind fun _ => .pure _))

theorem proveConsistencyBetween_readsOnly (oldSize newSize : Nat) :
    ReadsOnly (t.proveConsistencyBetween oldSize newSize) := by
  unfold proveConsistencyBetween
  dsimp only
  exact .ite (.throw_bind _ _) ((ReadsOnly.pure _).bind fun _ =>
    .ite (.throw_bind _ _) ((ReadsOnly.pure _).bind fun _ =>
      .ite (.pure _) (t.len_readsOnly.bind fun _ =>
        .ite (.throw_bind _ _) ((ReadsOnly.pure _).bind fun _ =>
          (ReadsOnly.mapM t.getNodeHash_readsOnly _).bind fun _ => .pure _))))

end SlateDbBackedTree

theorem checkedAdd_readsOnly (a b : Nat) : ReadsOnly (checkedAdd a b) := .ite (.pure _) (.panic _)

theorem checkedMul_readsOnly (a b : Nat) : ReadsOnly (checkedMul a b) := .ite (.pure _) (.panic _)

theorem encodeLeaf_readsOnly {T : Type} (C : LeafCodec T) (item : T) :
    ReadsOnly (encodeLeaf C item) := by
  unfold encodeLeaf
  split
  · exact ReadsOnly.pure _
  · exact ReadsOnly.throw _

theorem nodesToPrefetch_readsOnly (startingIndex count : Nat) :
    ReadsOnly (nodesToPrefetch startingIndex count) :=
  ReadsOnly.foldlM (fun set _ => (checkedAdd_readsOnly _ _).bind fun _ =>
    (checkedAdd_readsOnly _ _).bind fun _ => (checkedMul_readsOnly _ _).bind fun _ =>
      ReadsOnly.foldlM (fun _ _ => (checkedMul_readsOnly _ _).bind fun _ => ReadsOnly.pure _) _ set)
    _ _

namespace SlateDbBackedTree

variable {T : Type} (t : SlateDbBackedTree T)

theorem prefetchNodes_readsOnly (P : List Nat) : ReadsOnly (t.prefetchNodes P) :=
  .ite (.pure _) ((ReadsOnly.mapM (fun _ => t.db.get_readsOnly _) _).bind fun _ => .pure _)

theorem batchSiblingHash_readsOnly (prefetched computed : Nat → Option Bytes) (c x : Nat) :
    ReadsOnly (t.batchSiblingHash prefetched computed c x) := by
  unfold batchSiblingHash
  split
  · exact ReadsOnly.pure _
  · refine (checkedMul_readsOnly _ _).bind fun _ => ?_
    dsimp only
    split
    · exact ReadsOnly.pure _
    · split
      · exact ReadsOnly.pure _
      · refine (t.db.get_readsOnly _).bind fun r => ?_
        rcases r with _ | bytes
        · exact ReadsOnly.pure _
        · exact t.readHash_readsOnly bytes

theorem batchClimb_readsOnly (prefetched : Nat → Option Bytes) (n : Nat) :
    ∀ cs curHash st, ReadsOnly (t.batchClimb prefetched n cs curHash st)
  | [], _, _ => ReadsOnly.pure _
  | _ :: cs, _, _ =>
    (t.batchSiblingHash_readsOnly _ _ _ _).bind fun _ => batchClimb_readsOnly prefetched n cs _ _

theorem batchPushItem_readsOnly (prefetched : Nat → Option Bytes) (st : BatchState) (item : T) :
    ReadsOnly (t.batchPushItem prefetched st item) :=
  (encodeLeaf_readsOnly _ _).bind fun _ => (checkedAdd_readsOnly _ _).bind fun _ =>
    (checkedMul_readsOnly _ _).bind fun _ =>
      (t.batchClimb_readsOnly prefetched _ _ _ _).bind fun _ => ReadsOnly.pure _

theorem pathSiblingHash_readsOnly (computed : Nat → Option Bytes) (x : Nat) :
    ReadsOnly (t.pathSiblingHash computed x) := by
  unfold pathSiblingHash
  split
  · exact ReadsOnly.pure _
  · refine (t.db.get_readsOnly _).bind fun r => ?_
    rcases r with _ | bytes
    · exact ReadsOnly.pure _
    · exact t.readHash_readsOnly bytes

theorem recalculateClimb_readsOnly (n : Nat) :
    ∀ cs batch computed, ReadsOnly (t.recalculateClimb n cs batch computed)
  | [], _, _ => ReadsOnly.pure _
  | cur :: cs, batch, computed => by
    unfold recalculateClimb
    dsimp only
    split
    · simp only [pure_bind]
      exact (t.pathSiblingHash_readsOnly _ _).bind fun _ => recalculateClimb_readsOnly n cs _ _
    · exact ReadsOnly.throw_bind _ _

theorem recalculatePathBatch_readsOnly (batch : WriteBatch) (leafIdx : Nat) (leafVal : T)
    (numLeaves : Nat) : ReadsOnly (t.recalculatePathBatch batch leafIdx leafVal numLeaves) :=
  (checkedMul_readsOnly _ _).bind fun _ => t.recalculateClimb_readsOnly _ _ _ _

variable {t}

theorem batchPushWithData_readsOnly (ht : t.db = .readOnly) (L : List T) (E : WriteBatch) :
    ReadsOnly (t.batchPushWithData L E) :=
  t.len_readsOnly.bind fun _ => .ite (.pure _) ((ReadsOnly.pure _).bind fun _ =>
    (nodesToPrefetch_readsOnly _ _).bind fun _ => (t.prefetchNodes_readsOnly _).bind fun pf =>
      (ReadsOnly.foldlM (t.batchPushItem_readsOnly pf) _ _).bind fun _ =>
        (ht ▸ DbHandle.write_readsOnly _).bind fun _ => .pure _)

theorem push_readsOnly (ht : t.db = .readOnly) (d : T) : ReadsOnly (t.push d) :=
  t.len_readsOnly.bind fun _ => .ite (.throw_bind _ _) ((ReadsOnly.pure _).bind fun _ =>
    (encodeLeaf_readsOnly _ _).bind fun _ => (checkedAdd_readsOnly _ _).bind fun _ =>
      (t.recalculatePathBatch_readsOnly _ _ _ _).bind fun _ => (checkedAdd_readsOnly _ _).bind
        fun _ => ht ▸ DbHandle.write_readsOnly _)

/-- A handle from `from_reader` never writes: its appends read, compute their batch and fail at
the commit, so whatever they are asked they leave every backend as it was. -/
theorem fromReader_never_writes (H : Hasher) (C : LeafCodec T) (b : Backend) :
    Yields (fromReader H C) b ⟨H, C, .readOnly⟩ ∧ ∀ d L E,
      ReadsOnly ((⟨H, C, .readOnly⟩ : SlateDbBackedTree T).push d) ∧
      ReadsOnly ((⟨H, C, .readOnly⟩ : SlateDbBackedTree T).batchPush L) ∧
      ReadsOnly ((⟨H, C, .readOnly⟩ : SlateDbBackedTree T).batchPushWithData L E) :=
  ⟨rfl, fun d L E => ⟨push_readsOnly rfl d, batchPushWithData_readsOnly rfl L [],
    batchPushWithData_readsOnly rfl L E⟩⟩

end SlateDbBackedTree

namespace StorageBackedMerkleTree

variable (s : StorageBackedMerkleTree)

theorem size_readsOnly : ReadsOnly s.size := liftTree_readsOnly _ s.tree.len_readsOnly

theorem root_readsOnly : ReadsOnly s.root := liftTree_readsOnly _ s.tree.root_readsOnly

theorem proveInclusionEfficient_readsOnly (M i : Nat) :
    ReadsOnly (s.proveInclusionEfficient M i) :=
  .ite (.throw_bind _ _) ((ReadsOnly.pure _).bind fun _ => s.size_readsOnly.bind fun _ =>
    .ite (.throw_bind _ _) ((ReadsOnly.pure _).bind fun _ =>
      (liftTree_readsOnly _ (s.tree.proveInclusionAtSize_readsOnly _ _)).bind fun _ => .pure _))

theorem consistencyProofBetweenSizes_readsOnly (m k : Nat) :
    ReadsOnly (s.consistencyProofBetweenSizes m k) := by
  unfold consistencyProofBetweenSizes
  dsimp only
  exact .ite (.throw_bind _ _) ((ReadsOnly.pure _).bind fun _ =>
    .ite (.pure _) ((ReadsOnly.pure _).bind fun _ =>
      .ite (.throw_bind _ _) ((ReadsOnly.pure _).bind fun _ =>
        s.size_readsOnly.bind fun _ =>
          .ite (.throw_bind _ _) ((ReadsOnly.pure _).bind fun _ =>
            .ite (.throw_bind _ _) ((ReadsOnly.pure _).bind fun _ =>
              (liftTree_readsOnly _ (s.tree.proveConsistencyBetween_readsOnly _ _)).bind
                fun _ => .pure _)))))

end StorageBackedMerkleTree

/-- Every read call of the tree and of the server reads only: whatever it is asked and whatever
its reads return, it sends no put and no write, so it leaves every backend as it was. -/
theorem reads_never_write {T : Type} (t : SlateDbBackedTree T) (s : StorageBackedMerkleTree) :
    ReadsOnly t.len ∧ ReadsOnly t.root ∧ (∀ i, ReadsOnly (t.get i)) ∧
    (∀ i, ReadsOnly (t.proveInclusion i)) ∧ (∀ i M, ReadsOnly (t.proveInclusionAtSize i M)) ∧
    (∀ m, ReadsOnly (t.proveConsistency m)) ∧ (∀ m k, ReadsOnly (t.proveConsistencyBetween m k)) ∧
    ReadsOnly s.size ∧ ReadsOnly s.root ∧ (∀ M i, ReadsOnly (s.proveInclusionEfficient M i)) ∧
    (∀ m k, ReadsOnly (s.consistencyProofBetweenSizes m k)) :=
  ⟨t.len_readsOnly, t.root_readsOnly, t.get_readsOnly, t.proveInclusion_readsOnly,
    t.proveInclusionAtSize_readsOnly, t.proveConsistency_readsOnly, t.proveConsistencyBetween_readsOnly,
    s.size_readsOnly, s.root_readsOnly, s.proveInclusionEfficient_readsOnly,
    s.consistencyProofBetweenSizes_readsOnly⟩

end CompactLog
