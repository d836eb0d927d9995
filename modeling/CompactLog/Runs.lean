import CompactLog.Frame
import CompactLog.Reader

/-! The writer under faults: a call that does not commit leaves the store as it was, so every
store of a run is reachable, and what a past size reads never changes along it. -/

namespace CompactLog

section Atomic

variable {α β : Type} {b : Backend}

/-- Run from `b`, `p` commits, or leaves the backend as it was. -/
def Atomic (p : TreeM α) (b : Backend) : Prop :=
  (∃ r, (p.run.run b).1 = some (.ok r)) ∨ (p.run.run b).2 = b

theorem Returns.atomic {p : TreeM α} {Q : α → Prop} (h : Returns p b Q) : Atomic p b := .inr h.1

theorem Atomic.bind {x : TreeM α} {f : α → TreeM β} {P : α → Prop} (hx : Returns x b P)
    (hf : ∀ a, P a → Atomic (f a) b) : Atomic (x >>= f) b := by
  obtain ⟨hb, hok⟩ := hx
  unfold Atomic
  rw [ExceptT.run_bind, Io.run_bind]
  rcases e : x.run.run b with ⟨_ | _ | a, b'⟩ <;> simp only [e] at hb hok <;> subst hb
  · exact .inr rfl
  · exact .inr rfl
  · exact hf a (hok a rfl)

theorem DbHandle.write_atomic (d : DbHandle) (batch : WriteBatch) : Atomic (d.write batch) b := by
  rcases d.write_run batch (b := b) with e | ⟨_, e⟩ <;> unfold Atomic <;> rw [e]
  · exact .inl ⟨(), rfl⟩
  · exact .inr rfl

theorem DbHandle.write_pure_atomic (d : DbHandle) (batch : WriteBatch) (r : α) :
    Atomic (d.write batch >>= fun _ => pure r) b := by
  unfold Atomic
  rw [ExceptT.run_bind, Io.run_bind]
  rcases d.write_run batch (b := b) with e | ⟨_, e⟩ <;> rw [e]
  · exact .inl ⟨r, rfl⟩
  · exact .inr rfl

end Atomic

namespace SlateDbBackedTree

variable {T : Type} (t : SlateDbBackedTree T) {b : Backend}

theorem batchPushWithData_atomic (L : List T) (E : WriteBatch) :
    Atomic (t.batchPushWithData L E) b := by
  unfold batchPushWithData
  refine Atomic.bind t.len_returns fun S _ => ?_
  dsimp only
  split
  · exact (Returns.pure (Q := fun _ => True) trivial).atomic
  · simp only [pure_bind]
    exact Atomic.bind (nodesToPrefetch_returns _ _) fun _ _ =>
      Atomic.bind (t.prefetchNodes_returns _) fun pf _ =>
        Atomic.bind (t.batchPushItems_keys pf S L) fun _ _ => t.db.write_pure_atomic _ _

theorem push_atomic (d : T) : Atomic (t.push d) b := by
  unfold push
  refine Atomic.bind t.len_returns fun S _ => ?_
  dsimp only
  split
  · exact (Returns.bind (Returns.throw _) fun _ h => (h : False).elim :
      Returns _ b fun _ => True).atomic
  · simp only [pure_bind]
    exact Atomic.bind (encodeLeaf_returns _ _) fun bytes _ =>
      Atomic.bind (checkedAdd_returns S 1) fun n ⟨hn, _⟩ => by
        subst hn
        exact Atomic.bind (t.recalculatePathBatch_keys _ S d) fun _ _ =>
          Atomic.bind (checkedAdd_returns S 1) fun _ _ => t.db.write_atomic _

theorem new_returns_of_meta {H : Hasher} {C : LeafCodec T} (hm : b.kv metaKey ≠ none) :
    Returns (new H C) b (· = ⟨H, C, .readWrite⟩) := by
  unfold new
  refine (getNumLeaves_returns ⟨H, C, .readWrite⟩).bind fun r hr => ?_
  cases r with
  | none => exact absurd hr hm
  | some n => exact Returns.pure rfl

/-- The items a call appends: all of them when it commits, none when it fails or panics. -/
def committedItems {ε α : Type} : Option (Except ε α) → List T → List T
  | some (.ok _), L => L
  | _, _ => []

/-- One call of the writer `t` on a backend over the store, with any read and write faults: the
items appended so far, with those of the call if it commits, and the store the call leaves.
`reopen` is `new` on the store the writer left. -/
inductive Step : List T × Store → List T × Store → Prop
  | push {D : List T} (b : Backend) (d : T) :
      Step (D, b.kv) (D ++ committedItems ((t.push d).run.run b).1 [d], ((t.push d).run.run b).2.kv)
  | batchPush {D : List T} (b : Backend) (L : List T) :
      Step (D, b.kv)
        (D ++ committedItems ((t.batchPush L).run.run b).1 L, ((t.batchPush L).run.run b).2.kv)
  | batchPushWithData {D : List T} (b : Backend) (L : List T) (E : WriteBatch)
      (hE : ∀ kv ∈ E, ¬ IsTreeKey kv.1) :
      Step (D, b.kv) (D ++ committedItems ((t.batchPushWithData L E).run.run b).1 L,
        ((t.batchPushWithData L E).run.run b).2.kv)
  | reopen {D : List T} (b : Backend) : Step (D, b.kv) (D, ((new t.hasher t.codec).run.run b).2.kv)

variable {t}

theorem Reachable.committed {α : Type} {p : TreeM α} {D L : List T} (hr : t.Reachable D b.kv)
    (ha : Atomic p b) (hc : ∀ r, (p.run.run b).1 = some (.ok r) → t.Reachable (D ++ L) (p.run.run b).2.kv) :
    t.Reachable (D ++ committedItems (p.run.run b).1 L) (p.run.run b).2.kv := by
  rcases e : (p.run.run b).1 with _ | _ | r
  rotate_left 2
  · exact hc r e
  all_goals
    rw [ha.resolve_left fun ⟨r, h⟩ => by rw [e] at h; cases h]
    simpa only [committedItems, List.append_nil] using hr

theorem Step.reachable {x y : List T × Store} (hs : t.Step x y) (h : t.Reachable x.1 x.2) :
    t.Reachable y.1 y.2 := by
  cases hs with
  | push b d => exact h.committed (t.push_atomic d) fun _ hc => .push h hc
  | batchPush b L => exact h.committed (t.batchPushWithData_atomic L []) fun _ hc => .batchPush h hc
  | batchPushWithData b L E hE =>
    exact h.committed (t.batchPushWithData_atomic L E) fun _ hc => .batchPushWithData h hE hc
  | reopen b =>
    dsimp only at h ⊢
    obtain ⟨⟨ext, he⟩, -, -⟩ := h.storeInv
    have hm : b.kv metaKey ≠ none := by
      rw [he, treeStore_metaKey]
      exact Option.some_ne_none _
    rwa [(new_returns_of_meta hm).1]

theorem Reachable.of_steps {x y : List T × Store} (hs : Relation.ReflTransGen t.Step x y)
    (h : t.Reachable x.1 x.2) : t.Reachable y.1 y.2 := by
  induction hs with
  | refl => exact h
  | tail _ hst ih => exact hst.reachable ih

theorem Step.prefix {x y : List T × Store} (hs : t.Step x y) : x.1 <+: y.1 := by
  cases hs
  all_goals first | exact List.prefix_append _ _ | exact List.prefix_refl _

theorem prefix_of_steps {x y : List T × Store} (hs : Relation.ReflTransGen t.Step x y) :
    x.1 <+: y.1 := by
  induction hs with
  | refl => exact List.prefix_refl _
  | tail _ hst ih => exact ih.trans hst.prefix

variable (t)

/-- Every run of writer calls from a reachable store, each call on a backend with any read and
write faults, ends on a reachable store over the items of the calls that committed: the
canonical store over them. -/
theorem runs_under_faults {D D' : List T} {s s' : Store} (h : t.Reachable D s)
    (hs : Relation.ReflTransGen t.Step (D, s) (D', s')) :
    t.Reachable D' s' ∧ ∃ ext, s' = treeStore t.hasher t.codec D' ext :=
  have h' := Reachable.of_steps hs h
  ⟨h', h'.storeInv.canonical⟩

theorem failed_write_then_push :
    toy.Reachable [] (toy.pushStore []) ∧
    Relation.ReflTransGen toy.Step ([], toy.pushStore []) ([1], toy.pushStore [1]) ∧
    toy.Reachable [1] (toy.pushStore [1]) ∧
    ∃ ext, toy.pushStore [1] = treeStore toy.hasher toy.codec [1] ext :=
  have h : toy.Reachable [] (toy.pushStore []) := .new (t := toy) (b := .ofStore fun _ => none) rfl rfl
  have hs : Relation.ReflTransGen toy.Step ([], toy.pushStore []) ([1], toy.pushStore [1]) :=
    .tail (.single (Step.push ⟨toy.pushStore [], fun _ => none, some ⟨"write failed"⟩⟩ 1))
      (Step.push (.ofStore (toy.pushStore [])) 1)
  ⟨h, hs, runs_under_faults toy h hs⟩

/-- What a past size proves never changes. Along every run of writer calls from a reachable store
over `D`, with any faults, the items only grow, and at every size `M ≤ |D|` the node hashes and the
audit paths read on the later store are those read on the earlier one. -/
theorem runs_keep_history {D D' : List T} {s s' : Store} (h : t.Reachable D s)
    (hs : Relation.ReflTransGen t.Step (D, s) (D', s')) :
    D <+: D' ∧
    (∀ x M, 1 ≤ M → M ≤ D.length → x + 2 ≤ 2 * M →
      ((t.getNodeHashAtVersion x M).run.run (.ofStore s')).1 =
        ((t.getNodeHashAtVersion x M).run.run (.ofStore s)).1) ∧
    (∀ i M, i < M → M ≤ D.length →
      ((t.proveInclusionAtSize i M).run.run (.ofStore s')).1 =
        ((t.proveInclusionAtSize i M).run.run (.ofStore s)).1) := by
  have hp : D <+: D' := prefix_of_steps hs
  have h' : t.Reachable D' s' := Reachable.of_steps hs h
  obtain ⟨⟨ext', rfl⟩, hD', -⟩ := h'.storeInv
  obtain ⟨⟨ext, rfl⟩, hD, -⟩ := h.storeInv
  have htake : ∀ M ≤ D.length, D'.take M = D.take M := fun M hM => by
    rw [List.prefix_iff_eq_take.mp hp, List.take_take, min_eq_left hM]
  refine ⟨hp, fun x M hM hMD hx => ?_, fun i M hi hMD => ?_⟩
  · rw [t.getNodeHashAtVersion_treeStore hD' hM (hMD.trans hp.length_le) hx,
      t.getNodeHashAtVersion_treeStore hD hM hMD hx, ← nodeHash_take (le_refl M), htake M hMD,
      nodeHash_take (le_refl M)]
  · rw [t.proveInclusionAtSize_treeStore hD' hi (hMD.trans hp.length_le),
      t.proveInclusionAtSize_treeStore hD hi hMD, htake M hMD]

theorem push_keeps_first_item :
    toy.Reachable [1] (toy.pushStore [1]) ∧
    Relation.ReflTransGen toy.Step ([1], toy.pushStore [1]) ([1, 2], toy.pushStore [1, 2]) ∧
    [1] <+: [1, 2] ∧
    (∀ x M, 1 ≤ M → M ≤ [1].length → x + 2 ≤ 2 * M →
      ((toy.getNodeHashAtVersion x M).run.run (.ofStore (toy.pushStore [1, 2]))).1 =
        ((toy.getNodeHashAtVersion x M).run.run (.ofStore (toy.pushStore [1]))).1) ∧
    (∀ i M, i < M → M ≤ [1].length →
      ((toy.proveInclusionAtSize i M).run.run (.ofStore (toy.pushStore [1, 2]))).1 =
        ((toy.proveInclusionAtSize i M).run.run (.ofStore (toy.pushStore [1]))).1) :=
  have h : toy.Reachable [1] (toy.pushStore [1]) :=
    .push (b := .ofStore (toy.pushStore []))
      (.new (t := toy) (b := .ofStore fun _ => none) rfl rfl) rfl
  have hs : Relation.ReflTransGen toy.Step ([1], toy.pushStore [1]) ([1, 2], toy.pushStore [1, 2]) :=
    .single (Step.push (.ofStore (toy.pushStore [1])) 2)
  ⟨h, hs, runs_keep_history toy h hs⟩

end SlateDbBackedTree

end CompactLog
