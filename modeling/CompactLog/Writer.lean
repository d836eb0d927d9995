import CompactLog.AppendSpec

/-! The stores one writer reaches, `new` and then appends that commit: each is the canonical
store over the items so far, where a reader finds RFC 6962's hashes. -/

namespace CompactLog

namespace SlateDbBackedTree

variable {T : Type} (t : SlateDbBackedTree T)

/-- The stores one writer `t` reaches from an empty store: `new`, then `push`, `batch_push` and
`batch_push_with_data` calls that commit, each run on the store the last one left. `D` lists the
items appended so far; the extras stay off the tree's keys. -/
inductive Reachable : List T → Store → Prop
  | new {b : Backend} (hb : b.kv = fun _ => none)
      (h : ((SlateDbBackedTree.new t.hasher t.codec).run.run b).1 = some (.ok t)) :
      Reachable [] ((SlateDbBackedTree.new t.hasher t.codec).run.run b).2.kv
  | push {D : List T} {b : Backend} {d : T} (hr : Reachable D b.kv)
      (h : ((t.push d).run.run b).1 = some (.ok ())) :
      Reachable (D ++ [d]) ((t.push d).run.run b).2.kv
  | batchPush {D L : List T} {b : Backend} {r : Nat} (hr : Reachable D b.kv)
      (h : ((t.batchPush L).run.run b).1 = some (.ok r)) :
      Reachable (D ++ L) ((t.batchPush L).run.run b).2.kv
  | batchPushWithData {D L : List T} {E : WriteBatch} {b : Backend} {r : Nat}
      (hr : Reachable D b.kv) (hE : ∀ kv ∈ E, ¬ IsTreeKey kv.1)
      (h : ((t.batchPushWithData L E).run.run b).1 = some (.ok r)) :
      Reachable (D ++ L) ((t.batchPushWithData L E).run.run b).2.kv

/-- The store invariant: the canonical store over `D`, with anything at the application's keys,
over at most `2 ^ 63` items that all serialize. -/
structure StoreInv (D : List T) (s : Store) : Prop where
  canonical : ∃ ext, s = treeStore t.hasher t.codec D ext
  length_le : D.length ≤ 2 ^ 63
  serializes : ∀ d ∈ D, ∃ bytes, t.codec.serialize d = .ok bytes

def pushStore (D : List T) : Store :=
  D.foldl (fun s d => ((t.push d).run.run (.ofStore s)).2.kv)
    ((SlateDbBackedTree.new t.hasher t.codec).run.run (.ofStore fun _ => none)).2.kv

def batchStore (D : List T) : Store :=
  ((t.batchPush D).run.run
    (.ofStore ((SlateDbBackedTree.new t.hasher t.codec).run.run (.ofStore fun _ => none)).2.kv)).2.kv

theorem reachable_batchStore {D : List T} {r : Nat}
    (hn : ((SlateDbBackedTree.new t.hasher t.codec).run.run (.ofStore fun _ => none)).1 =
      some (.ok t))
    (h : ((t.batchPush D).run.run (.ofStore ((SlateDbBackedTree.new t.hasher t.codec).run.run
      (.ofStore fun _ => none)).2.kv)).1 = some (.ok r)) :
    t.Reachable D (t.batchStore D) :=
  .batchPush (.new rfl hn) h

variable {t}

theorem StoreInv.append {D L : List T} {s s' : Store} (hi : t.StoreInv D s)
    (hs : ∃ ext, s' = treeStore t.hasher t.codec (D ++ L) ext) (hl : (D ++ L).length ≤ 2 ^ 63)
    (hL : ∀ d ∈ L, ∃ bytes, t.codec.serialize d = .ok bytes) : t.StoreInv (D ++ L) s' :=
  ⟨hs, hl, fun d hd => (List.mem_append.mp hd).elim (hi.serializes d) (hL d)⟩

theorem Reachable.storeInv {D : List T} {s : Store} (h : t.Reachable D s) : t.StoreInv D s := by
  induction h with
  | new hb h =>
    refine ⟨⟨fun _ => none, ?_⟩, by simp, by simp⟩
    rw [(new_run hb h).1, treeStore_nil]
  | push _ h ih =>
    have ⟨⟨ext, hb⟩, hD, _⟩ := ih
    obtain ⟨e, hl, bytes, hbytes⟩ := t.push_run hb hD h
    exact ih.append ⟨ext, e⟩ hl fun d hd => by rw [List.mem_singleton.mp hd]; exact ⟨bytes, hbytes⟩
  | batchPush _ h ih =>
    have ⟨⟨ext, hb⟩, hD, _⟩ := ih
    obtain ⟨e, -, hl, hL⟩ := t.batchPushWithData_run hb hD (by simp) h
    exact ih.append ⟨_, e⟩ hl hL
  | batchPushWithData _ hE h ih =>
    have ⟨⟨ext, hb⟩, hD, _⟩ := ih
    obtain ⟨e, -, hl, hL⟩ :=
      t.batchPushWithData_run hb hD (fun kv hkv => parseKey_eq_none_iff.mpr (hE kv hkv)) h
    exact ih.append ⟨_, e⟩ hl hL

variable (t)

theorem root_yields {D : List T} {ext : Store} (hD : D.length ≤ 2 ^ 63) :
    Yields t.root (.ofStore (treeStore t.hasher t.codec D ext)) ⟨mth t.hasher t.codec D, D.length⟩ := by
  refine (t.len_yields treeStore_metaKey (by omega)).bind ?_
  by_cases h0 : D.length = 0
  · rw [List.length_eq_zero.mp h0]
    exact Yields.pure _
  · have hn : 1 ≤ D.length := by omega
    have hb := subtreeRoot_bounds 0 hn
    have e : nodeHash t.hasher t.codec D D.length (rootIdx D.length) = mth t.hasher t.codec D := by
      rw [rootIdx, nodeHash_subtreeRoot (.refl 0 _) hn, Nat.zero_add, slice_zero]
    simp only [h0, if_false]
    refine (t.getNodeHash_yields ?_ (mth_length _)).bind (Yields.pure _)
    rw [treeStore_nodeKey (by unfold rootIdx; omega), if_pos (by unfold rootIdx; omega), e]

/-- What a reachable store holds: `meta` is the size, the leaves are the serialized items, each
realized node holds the RFC 6962 hash of its leaves at the current size, and the versioned
entries are those of the walks, each with the hash at its own size. `root` then reads the hash
of all items (for no items, `mth` is the hash of the empty string). -/
theorem reachable_store {D : List T} {s : Store} (h : t.Reachable D s) :
    s metaKey = some (be64 D.length) ∧
    (∀ i (hi : i < D.length), ∃ bytes, t.codec.serialize D[i] = .ok bytes ∧
      s (leafKey i) = some bytes) ∧
    (∀ i, D.length ≤ i → i < 2 ^ 64 → s (leafKey i) = none) ∧
    (∀ x, x + 2 ≤ 2 * D.length → s (nodeKey x) =
      some (mth t.hasher t.codec (slice D (truncRange x D.length).1 (truncRange x D.length).2))) ∧
    (∀ x M, x < 2 ^ 64 → M < 2 ^ 64 → s (versionedNodeKey x M) =
      if 1 ≤ M ∧ M ≤ D.length ∧ x ∈ walk M then
        some (mth t.hasher t.codec (slice D (truncRange x M).1 (truncRange x M).2))
      else none) ∧
    Yields t.root (.ofStore s) ⟨mth t.hasher t.codec D, D.length⟩ := by
  obtain ⟨⟨ext, rfl⟩, hD, hser⟩ := h.storeInv
  refine ⟨treeStore_metaKey, fun i hi => ?_, fun i hi hi' => ?_, fun x hx => ?_,
    fun x M hx hM => ?_, t.root_yields hD⟩
  · obtain ⟨bytes, hb⟩ := hser _ (List.getElem_mem hi)
    refine ⟨bytes, hb, ?_⟩
    rw [treeStore_leafKey (by omega), List.getElem?_eq_getElem hi, Option.some_bind, hb]
    rfl
  · rw [treeStore_leafKey hi', List.getElem?_eq_none hi, Option.none_bind]
  · rw [treeStore_nodeKey (by omega), if_pos hx]
    rfl
  · rw [treeStore_versionedNodeKey hx hM]
    rfl

theorem reachable_store_two_items : toy.Reachable [1, 2] (toy.pushStore [1, 2]) ∧
    toy.pushStore [1, 2] metaKey = some (be64 2) ∧
    Yields toy.root (.ofStore (toy.pushStore [1, 2])) ⟨mth toy.hasher toy.codec [1, 2], 2⟩ :=
  have h : toy.Reachable [1, 2] (toy.pushStore [1, 2]) :=
    .push (.push (.new (t := toy) (b := .ofStore fun _ => none) rfl rfl) (b := .ofStore _) rfl)
      (b := .ofStore _) rfl
  ⟨h, (reachable_store toy h).1, (reachable_store toy h).2.2.2.2.2⟩

theorem reachable_batch_overflows {D L : List T} {E : WriteBatch} {s : Store}
    (h : t.Reachable D s) (hD : D.length < 2 ^ 63) (hk : 2 ^ 63 < D.length + L.length) :
    Panics (t.batchPushWithData L E) (.ofStore s) := by
  obtain ⟨⟨ext, rfl⟩, -, -⟩ := h.storeInv
  exact t.batchPushWithData_panics (t.len_yields treeStore_metaKey (by omega)) hD hk

/-- `p` run from a backend over `s` commits and leaves `s'`. -/
def Commits {α : Type} (p : TreeM α) (s s' : Store) : Prop :=
  ∃ b : Backend, b.kv = s ∧ ∃ r, (p.run.run b).1 = some (.ok r) ∧ (p.run.run b).2.kv = s'

/-- `push` of each item of `L` in turn, each call committing, from `s` to `s'`. -/
inductive Pushes : Store → List T → Store → Prop
  | nil (s : Store) : Pushes s [] s
  | cons {s s₁ s' : Store} {d : T} {L : List T} (h : Commits (t.push d) s s₁)
      (hr : Pushes s₁ L s') : Pushes s (d :: L) s'

variable {t}

theorem Commits.batchPushWithData {D L : List T} {E : WriteBatch} {ext : Store} {s' : Store}
    (hD : D.length ≤ 2 ^ 63) (hE : ∀ kv ∈ E, parseKey kv.1 = none)
    (h : Commits (t.batchPushWithData L E) (treeStore t.hasher t.codec D ext) s') :
    s' = treeStore t.hasher t.codec (D ++ L) (ext.apply E) ∧ (D ++ L).length ≤ 2 ^ 63 := by
  obtain ⟨b, hb, r, hr, rfl⟩ := h
  obtain ⟨e, -, hl, -⟩ := t.batchPushWithData_run hb hD hE hr
  exact ⟨e, hl⟩

theorem Pushes.treeStore {D L : List T} {ext : Store} {s' : Store} (hD : D.length ≤ 2 ^ 63)
    (h : t.Pushes (treeStore t.hasher t.codec D ext) L s') :
    s' = treeStore t.hasher t.codec (D ++ L) ext := by
  induction L generalizing D with
  | nil => cases h; simp
  | cons d L ih =>
    obtain _ | ⟨⟨b, hb, r, hr, rfl⟩, hp⟩ := h
    obtain ⟨e, hl, -⟩ := t.push_run hb hD hr
    rw [e] at hp
    simpa using ih hl hp

/-- From a reachable store, `batch_push(L)`, `batch_push(L[..k])` then `batch_push(L[k..])`, and
one `push` per item leave the same store when every call commits; `batch_push_with_data(L, E)`
leaves that store with the puts of `E` made. -/
theorem appends_agree {D L : List T} {E : WriteBatch} {k : Nat} {s s₁ s₂ s₂' s₃ s₄ : Store}
    (hr : t.Reachable D s) (h₁ : Commits (t.batchPush L) s s₁)
    (h₂ : Commits (t.batchPush (L.take k)) s s₂) (h₂' : Commits (t.batchPush (L.drop k)) s₂ s₂')
    (h₃ : t.Pushes s L s₃) (hE : ∀ kv ∈ E, ¬ IsTreeKey kv.1)
    (h₄ : Commits (t.batchPushWithData L E) s s₄) :
    s₂' = s₁ ∧ s₃ = s₁ ∧ s₄ = s₁.apply E := by
  obtain ⟨⟨ext, rfl⟩, hD, -⟩ := hr.storeInv
  have hE' : ∀ kv ∈ E, parseKey kv.1 = none := fun kv hkv => parseKey_eq_none_iff.mpr (hE kv hkv)
  obtain ⟨rfl, -⟩ := Commits.batchPushWithData hD (by simp) h₁
  obtain ⟨rfl, hl⟩ := Commits.batchPushWithData hD (by simp) h₂
  obtain ⟨rfl, -⟩ := Commits.batchPushWithData hl (by simp) h₂'
  obtain ⟨rfl, -⟩ := Commits.batchPushWithData hD hE' h₄
  exact ⟨by simp, by simpa using h₃.treeStore hD, by rw [Store.apply_nil, treeStore_apply hE']⟩

theorem appends_agree_two_items : ∃ s₁ s₂ s₂' s₃ s₄ : Store,
    toy.Reachable [1] (toy.pushStore [1]) ∧ Commits (toy.batchPush [2, 3]) (toy.pushStore [1]) s₁ ∧
    Commits (toy.batchPush [2]) (toy.pushStore [1]) s₂ ∧ Commits (toy.batchPush [3]) s₂ s₂' ∧
    toy.Pushes (toy.pushStore [1]) [2, 3] s₃ ∧ (∀ kv ∈ ([([0], [5])] : WriteBatch), ¬ IsTreeKey kv.1) ∧
    Commits (toy.batchPushWithData [2, 3] [([0], [5])]) (toy.pushStore [1]) s₄ ∧
    s₂' = s₁ ∧ s₃ = s₁ ∧ s₄ = s₁.apply [([0], [5])] := by
  have hr : toy.Reachable [1] (toy.pushStore [1]) :=
    .push (.new (t := toy) (b := .ofStore fun _ => none) rfl rfl) (b := .ofStore _) rfl
  have hE : ∀ kv ∈ ([([0], [5])] : WriteBatch), ¬ IsTreeKey kv.1 := by
    simp only [List.mem_singleton, forall_eq]
    exact parseKey_eq_none_iff.mp rfl
  have h₁ : Commits (toy.batchPush [2, 3]) (toy.pushStore [1]) _ := ⟨.ofStore _, rfl, 1, rfl, rfl⟩
  have h₂ : Commits (toy.batchPush [2]) (toy.pushStore [1]) _ := ⟨.ofStore _, rfl, 1, rfl, rfl⟩
  have h₂' : Commits (toy.batchPush [3])
      ((toy.batchPush [2]).run.run (.ofStore (toy.pushStore [1]))).2.kv _ :=
    ⟨.ofStore _, rfl, 2, rfl, rfl⟩
  have h₃ : toy.Pushes (toy.pushStore [1]) [2, 3] _ :=
    .cons ⟨.ofStore _, rfl, (), rfl, rfl⟩ (.cons ⟨.ofStore _, rfl, (), rfl, rfl⟩ (.nil _))
  have h₄ : Commits (toy.batchPushWithData [2, 3] [([0], [5])]) (toy.pushStore [1]) _ :=
    ⟨.ofStore _, rfl, 1, rfl, rfl⟩
  exact ⟨_, _, _, _, _, hr, h₁, h₂, h₂', h₃, hE, h₄, appends_agree (k := 1) hr h₁ h₂ h₂' h₃ hE h₄⟩

end SlateDbBackedTree

end CompactLog
