import CompactLog.Writer

/-! The writer over a backend with no faults: on a reachable store each sibling lookup finds the
sibling's hash, and an append that fits commits. -/

namespace CompactLog

namespace SlateDbBackedTree

variable {T : Type} (t : SlateDbBackedTree T) {s : Store}

theorem Reachable.db_eq {D : List T} (h : t.Reachable D s) : t.db = .readWrite := by
  induction h with
  | new hb h => exact congrArg SlateDbBackedTree.db (new_run hb h).2
  | push _ _ ih => exact ih
  | batchPush _ _ ih => exact ih
  | batchPushWithData _ _ _ ih => exact ih

theorem write_succeeds (hdb : t.db = .readWrite) (batch : WriteBatch) :
    Succeeds (t.db.write batch) (.ofStore s) fun _ => True := by
  rw [hdb]
  exact ⟨(), trivial, rfl⟩

theorem write_pure_succeeds {α : Type} (hdb : t.db = .readWrite) (batch : WriteBatch) (r : α) :
    Succeeds (t.db.write batch >>= fun _ => pure r) (.ofStore s) (· = r) := by
  rw [hdb]
  exact ⟨r, rfl, rfl⟩

/-- Where the lookup of sibling `x` finds its hash `h`: computed in this append, or, below `2 * c`,
prefetched or in a `NODE` entry of the hash width; not the ghost branch, not a zero hash. -/
def SiblingFound (s : Store) (prefetched computed : Nat → Option Bytes) (c x : Nat) (h : Bytes) :
    Prop :=
  computed x = some h ∨ computed x = none ∧ x < 2 * c ∧
    (prefetched x = some h ∨ prefetched x = none ∧ s (nodeKey x) = some h ∧
      h.length = t.hasher.outputSize)

theorem batchSiblingHash_found {prefetched computed : Nat → Option Bytes} {c x : Nat} {h : Bytes}
    (hpf : ∀ y h, prefetched y = some h → s (nodeKey y) = some h) (hc : c < 2 ^ 63) (hx : x < 2 * c)
    (hh : computed x = some h ∨
      computed x = none ∧ s (nodeKey x) = some h ∧ h.length = t.hasher.outputSize) :
    Yields (t.batchSiblingHash prefetched computed c x) (.ofStore s) h ∧
      t.SiblingFound s prefetched computed c x h := by
  rcases hh with hcx | ⟨hcx, hs, hl⟩
  · refine ⟨?_, .inl hcx⟩
    simp only [batchSiblingHash, hcx]
    exact Yields.pure _
  · have hb : Yields (checkedMul c 2) (.ofStore s) (c * 2) :=
      checkedMul_yields (by unfold u64Max; omega)
    rcases hp : prefetched x with _ | h'
    · refine ⟨?_, .inr ⟨hcx, hx, .inr ⟨hp, hs, hl⟩⟩⟩
      simp only [batchSiblingHash, hcx]
      refine hb.bind ?_
      simp only [show ¬ x ≥ c * 2 by omega, if_false, pure_bind, hp]
      exact (t.db.get_yields _).bind (by simp only [hs]; exact t.readHash_yields hl)
    · obtain rfl : h' = h := Option.some.inj ((hpf x h' hp).symm.trans hs)
      refine ⟨?_, .inr ⟨hcx, hx, .inl hp⟩⟩
      simp only [batchSiblingHash, hcx]
      refine hb.bind ?_
      simp only [show ¬ x ≥ c * 2 by omega, if_false, pure_bind, hp]
      exact Yields.pure _

theorem SiblingsReady.congr {F : List T} {n : Nat} {b : Backend}
    {computed computed' : Nat → Option Bytes} (hr : t.SiblingsReady F n b computed)
    (hc : ∀ y, y ∉ walk n → computed' y = computed y) : t.SiblingsReady F n b computed' := by
  intro a m hf hm
  rw [hc _ (hf.left_child hm).2.1]
  exact hr a m hf hm

theorem SiblingsReady.found {F : List T} {c a m : Nat} {prefetched computed : Nat → Option Bytes}
    (hr : t.SiblingsReady F (c + 1) (.ofStore s) computed)
    (hpf : ∀ y h, prefetched y = some h → s (nodeKey y) = some h) (hc : c < 2 ^ 63)
    (hf : OnFrontier (c + 1) a m) (hm : 2 ≤ m) :
    ∃ h, Yields (t.batchSiblingHash prefetched computed c (subtreeRoot a (split m))) (.ofStore s) h ∧
      t.SiblingFound s prefetched computed c (subtreeRoot a (split m)) h := by
  have hbd := subtreeRoot_bounds a (one_le_split hm)
  have hx : subtreeRoot a (split m) < 2 * c := by
    have := hf.2.1; have := split_lt hm; omega
  obtain ⟨hsome, hnone⟩ := hr a m hf hm
  rcases hcx : computed (subtreeRoot a (split m)) with _ | h
  · exact ⟨_, t.batchSiblingHash_found hpf hc hx (.inr ⟨hcx, hnone hcx, nodeHash_length⟩)⟩
  · exact ⟨h, t.batchSiblingHash_found hpf hc hx (.inl hcx)⟩

theorem pathSiblingHash_stored {computed : Nat → Option Bytes} {x : Nat} {h : Bytes}
    (hc : computed x = none) (hs : s (nodeKey x) = some h) (hl : h.length = t.hasher.outputSize) :
    Yields (t.pathSiblingHash computed x) (.ofStore s) h := by
  simp only [pathSiblingHash, hc]
  exact (t.db.get_yields _).bind (by simp only [hs]; exact t.readHash_yields hl)

theorem SiblingsReady.pathSiblingHash_yields {F : List T} {n a m : Nat}
    {computed : Nat → Option Bytes} (hr : t.SiblingsReady F n (.ofStore s) computed)
    (hf : OnFrontier n a m) (hm : 2 ≤ m) :
    Yields (t.pathSiblingHash computed (subtreeRoot a (split m))) (.ofStore s)
      (nodeHash t.hasher t.codec F n (subtreeRoot a (split m))) := by
  rcases hcs : computed (subtreeRoot a (split m)) with _ | sh
  · exact t.pathSiblingHash_stored hcs ((hr a m hf hm).2 hcs) nodeHash_length
  · simp only [pathSiblingHash, hcs, (hr a m hf hm).1 sh hcs]
    exact Yields.pure _

variable {t}

theorem batchClimb_succeeds {F : List T} {n : Nat} {prefetched : Nat → Option Bytes}
    (hpf : ∀ y h, prefetched y = some h → s (nodeKey y) = some h) (hn : n ≤ 2 ^ 63) :
    ∀ f a m (curHash : Bytes) (st : BatchState), OnFrontier n a m → n - m ≤ f →
      n = st.currentNumLeaves + 1 → t.SiblingsReady F n (.ofStore s) st.computed →
      Succeeds (t.batchClimb prefetched n (climb n f (subtreeRoot a m)) curHash st) (.ofStore s)
        fun _ => True := by
  intro f
  induction f with
  | zero => intro _ _ _ st _ _ _ _; exact ⟨st, trivial, rfl⟩
  | succ f ih =>
    intro a m curHash st hf hfuel hn' hr
    by_cases hmn : m < n
    · obtain ⟨a', m', hf', hlt, -, hc, hp, hs, -⟩ := hf.climb_step (f := f) hmn
      have h2 : 2 ≤ m' := by have := hf.1; omega
      subst hn'
      obtain ⟨sh, hsh, -⟩ := SiblingsReady.found t hr hpf (by omega) hf' h2
      rw [hc]
      simp only [batchClimb, hp, hs]
      exact hsh.bind_succeeds (ih a' m' _ _ hf' (by omega) rfl
        (SiblingsReady.update t hr ((mem_walk (by omega)).mpr ⟨a', m', hf', rfl⟩)))
    · obtain ⟨rfl, rfl⟩ := hf.eq_top (by omega)
      rw [hf.climb_top]
      exact ⟨st, trivial, rfl⟩

theorem batchPushItem_succeeds {F : List T} {S c : Nat} {ext : Store} {st : BatchState}
    {prefetched : Nat → Option Bytes} (hpf : ∀ y h, prefetched y = some h → s (nodeKey y) = some h)
    (hb : s = treeStore t.hasher t.codec (F.take S) ext) (hSc : S ≤ c) (hc : c < F.length)
    (hc63 : c < 2 ^ 63) (hinv : t.BatchInv F S ext c st) {bytes : Bytes}
    (hser : t.codec.serialize F[c] = .ok bytes) :
    Succeeds (t.batchPushItem prefetched st F[c]) (.ofStore s) fun _ => True := by
  have hi : Yields (internalOfLeaf c) (.ofStore s) (c * 2) :=
    checkedMul_yields (by unfold u64Max; omega)
  have hmem : subtreeRoot c 1 ∈ walk (c + 1) := by rw [walk_succ]; exact List.mem_cons_self _ _
  unfold batchPushItem
  rw [hinv.current]
  refine (encodeLeaf_yields hser).bind_succeeds ((checkedAdd_yields (by unfold u64Max; omega)).bind_succeeds
    (hi.bind_succeeds ?_))
  rw [Nat.mul_comm, ← subtreeRoot_of_le_one (le_refl 1)]
  exact ((batchClimb_succeeds hpf (by omega) (c + 1) c 1 _ _ ⟨le_rfl, rfl, by simp [width]⟩
    (by omega) (by exact hinv.current ▸ rfl)
    (by exact SiblingsReady.update t (BatchInv.siblingsReady t hinv hb hSc hc.le hc63) hmem)).bind_pure
    _).mono fun _ _ => trivial

theorem batchPushItems_succeeds {D L : List T} {ext : Store} {prefetched : Nat → Option Bytes}
    (hpf : ∀ y h, prefetched y = some h → s (nodeKey y) = some h)
    (hb : s = treeStore t.hasher t.codec D ext) (hk : D.length + L.length ≤ 2 ^ 63)
    (hser : ∀ d ∈ L, ∃ bytes, t.codec.serialize d = .ok bytes) :
    Succeeds (L.foldlM (t.batchPushItem prefetched) ⟨D.length, [], fun _ => none⟩) (.ofStore s)
      fun _ => True := by
  have hF : (D ++ L).take D.length = D := List.take_left' rfl
  refine (Succeeds.foldlM (fun pre st => t.BatchInv (D ++ L) D.length ext (D.length + pre.length) st)
    L (fun pre x rest st he hinv => ?_) (t.batchInv_start (by simp))).mono fun _ _ => trivial
  have hc : D.length + pre.length < (D ++ L).length := by rw [← he]; simp
  have hx : (D ++ L)[D.length + pre.length] = x := by
    subst he
    simp [List.getElem_append_right]
  obtain ⟨bytes, hbytes⟩ := hser x (by rw [← he]; simp)
  have hc63 : D.length + pre.length < 2 ^ 63 := by simp at hc; omega
  rw [← hx] at hbytes ⊢
  exact ⟨batchPushItem_succeeds hpf (hF.symm ▸ hb) (by omega) hc hc63 hinv hbytes,
    (t.batchPushItem_returns hpf (hF.symm ▸ hb) (by omega) hc hinv).mono
      fun st' h => by simpa [Nat.add_assoc] using h.1⟩

theorem prefetchNodes_succeeds (P : List Nat) :
    Succeeds (t.prefetchNodes P) (.ofStore s) fun _ => True := by
  unfold prefetchNodes
  split
  · exact ⟨_, trivial, rfl⟩
  · refine (Yields.mapM (g := fun idx => s (nodeKey idx)) P fun _ _ => t.db.get_yields _).bind_succeeds ?_
    exact ⟨_, trivial, rfl⟩

theorem batchPushWithData_succeeds {D L : List T} (E : WriteBatch) (h : t.Reachable D s)
    (hk : D.length + L.length ≤ 2 ^ 63) (hser : ∀ d ∈ L, ∃ bytes, t.codec.serialize d = .ok bytes) :
    Succeeds (t.batchPushWithData L E) (.ofStore s) (· = D.length) := by
  obtain ⟨⟨ext, hs⟩, hD, -⟩ := h.storeInv
  have hlen : Yields t.len (.ofStore s) D.length := t.len_yields (hs ▸ treeStore_metaKey) (by omega)
  obtain ⟨P, hP⟩ := nodesToPrefetch_yields (b := .ofStore s) hk
  unfold batchPushWithData
  refine hlen.bind_succeeds ?_
  split
  · exact ⟨_, rfl, rfl⟩
  · refine hP.bind_succeeds ((prefetchNodes_succeeds P).bind (t.prefetchNodes_returns P)
      fun pf hpf _ => ?_)
    exact (batchPushItems_succeeds hpf hs hk hser).bind (t.batchPushItems_returns hpf hs (by omega))
      fun _ _ _ => write_pure_succeeds t h.db_eq _ _

theorem recalculateClimb_succeeds {F : List T} {n : Nat} :
    ∀ f a m (batch : WriteBatch) (computed : Nat → Option Bytes), OnFrontier n a m → n - m ≤ f →
      computed (subtreeRoot a m) ≠ none → t.SiblingsReady F n (.ofStore s) computed →
      Succeeds (t.recalculateClimb n (climb n f (subtreeRoot a m)) batch computed) (.ofStore s)
        fun _ => True := by
  intro f
  induction f with
  | zero => intro _ _ batch _ _ _ _ _; exact ⟨batch, trivial, rfl⟩
  | succ f ih =>
    intro a m batch computed hf hfuel hcur hr
    by_cases hmn : m < n
    · obtain ⟨a', m', hf', hlt, -, hc, hp, hs, -⟩ := hf.climb_step (f := f) hmn
      have h2 : 2 ≤ m' := by have := hf.1; omega
      obtain ⟨h, hh⟩ := Option.ne_none_iff_exists'.mp hcur
      rw [hc]
      simp only [recalculateClimb, hp, hs, hh, pure_bind]
      exact (SiblingsReady.pathSiblingHash_yields t hr hf' h2).bind_succeeds (ih a' m' _ _ hf' (by omega)
        (by simp) (SiblingsReady.update t hr ((mem_walk (by omega)).mpr ⟨a', m', hf', rfl⟩)))
    · obtain ⟨rfl, rfl⟩ := hf.eq_top (by omega)
      rw [hf.climb_top]
      exact ⟨batch, trivial, rfl⟩

theorem recalculatePathBatch_succeeds {D : List T} {ext : Store} {d : T} (batch : WriteBatch)
    (hb : s = treeStore t.hasher t.codec D ext) (hD : D.length < 2 ^ 63) :
    Succeeds (t.recalculatePathBatch batch D.length d (D.length + 1)) (.ofStore s) fun _ => True := by
  have hi : Yields (internalOfLeaf D.length) (.ofStore s) (D.length * 2) :=
    checkedMul_yields (by unfold u64Max; omega)
  have hinv : t.BatchInv (D ++ [d]) D.length ext D.length ⟨D.length, [], fun _ => none⟩ :=
    t.batchInv_start (by simp)
  have hr := BatchInv.siblingsReady t (b := .ofStore s) hinv (by simpa using hb) le_rfl (by simp) hD
  have hmem : subtreeRoot D.length 1 ∈ walk (D.length + 1) := by
    rw [walk_succ]; exact List.mem_cons_self _ _
  unfold recalculatePathBatch
  refine hi.bind_succeeds ?_
  rw [Nat.mul_comm, ← subtreeRoot_of_le_one (le_refl 1)]
  exact recalculateClimb_succeeds (D.length + 1) D.length 1 _ _ ⟨le_rfl, rfl, by simp [width]⟩
    (by omega) (by simp) (SiblingsReady.update t hr hmem)

theorem push_succeeds {D : List T} {d : T} (h : t.Reachable D s) (hS : D.length < u64Max / 2)
    (hd : ∃ bytes, t.codec.serialize d = .ok bytes) :
    Succeeds (t.push d) (.ofStore s) fun _ => True := by
  obtain ⟨⟨ext, hs⟩, hD, -⟩ := h.storeInv
  obtain ⟨bytes, hb⟩ := hd
  have h63 : D.length < 2 ^ 63 := by unfold u64Max at hS; omega
  have hadd : Yields (checkedAdd D.length 1) (.ofStore s) (D.length + 1) :=
    checkedAdd_yields (by unfold u64Max; omega)
  unfold push
  refine (t.len_yields (hs ▸ treeStore_metaKey) (by omega)).bind_succeeds ?_
  simp only [if_neg (show ¬ D.length ≥ u64Max / 2 by omega), pure_bind]
  refine (encodeLeaf_yields hb).bind_succeeds (hadd.bind_succeeds ?_)
  exact (recalculatePathBatch_succeeds _ hs h63).bind (t.recalculatePathBatch_returns bytes hs h63)
    fun _ _ _ => hadd.bind_succeeds (write_succeeds t h.db_eq _)

theorem Reachable.batchPushWithData_commits {D L : List T} (E : WriteBatch) (h : t.Reachable D s)
    (hk : D.length + L.length ≤ 2 ^ 63) (hser : ∀ d ∈ L, ∃ bytes, t.codec.serialize d = .ok bytes) :
    ((t.batchPushWithData L E).run.run (.ofStore s)).1 = some (.ok D.length) :=
  let ⟨_, e, he⟩ := batchPushWithData_succeeds E h hk hser
  e ▸ he

theorem Reachable.push_commits {D : List T} {d : T} (h : t.Reachable D s)
    (hS : D.length < u64Max / 2) (hd : ∃ bytes, t.codec.serialize d = .ok bytes) :
    ((t.push d).run.run (.ofStore s)).1 = some (.ok ()) := by
  obtain ⟨⟨⟩, -, he⟩ := push_succeeds h hS hd
  exact he

/-- On a reachable store over a backend with no faults, every append that fits commits: a
`batch_push_with_data` of items that serialize, to at most `2 ^ 63` leaves, returns `|D|`, and a
`push` below `u64::MAX / 2` leaves of an item that serializes returns. The store either leaves
is reachable again, for a batch whose extras stay off the tree's keys. -/
theorem appends_commit {D : List T} (h : t.Reachable D s) :
    (∀ (L : List T) (E : WriteBatch), D.length + L.length ≤ 2 ^ 63 →
      (∀ d ∈ L, ∃ bytes, t.codec.serialize d = .ok bytes) →
      ((t.batchPushWithData L E).run.run (.ofStore s)).1 = some (.ok D.length) ∧
        ((∀ kv ∈ E, ¬ IsTreeKey kv.1) →
          t.Reachable (D ++ L) ((t.batchPushWithData L E).run.run (.ofStore s)).2.kv)) ∧
    (∀ d : T, D.length < u64Max / 2 → (∃ bytes, t.codec.serialize d = .ok bytes) →
      ((t.push d).run.run (.ofStore s)).1 = some (.ok ()) ∧
        t.Reachable (D ++ [d]) ((t.push d).run.run (.ofStore s)).2.kv) :=
  ⟨fun _ E hk hser => ⟨h.batchPushWithData_commits E hk hser,
      fun hE => .batchPushWithData (b := .ofStore s) h hE (h.batchPushWithData_commits E hk hser)⟩,
    fun _ hS hd => ⟨h.push_commits hS hd, .push (b := .ofStore s) h (h.push_commits hS hd)⟩⟩

theorem appends_commit_on_new :
    toy.Reachable [] (toy.pushStore []) ∧
      ((toy.batchPushWithData [1, 2] []).run.run (.ofStore (toy.pushStore []))).1 = some (.ok 0) ∧
      ((toy.push 1).run.run (.ofStore (toy.pushStore []))).1 = some (.ok ()) :=
  have h : toy.Reachable [] (toy.pushStore []) := .new (t := toy) (b := .ofStore fun _ => none) rfl rfl
  ⟨h, ((appends_commit h).1 [1, 2] [] (by decide) fun _ _ => ⟨_, rfl⟩).1,
    ((appends_commit h).2 1 (by decide) ⟨_, rfl⟩).1⟩

/-- At `u64::MAX / 2` leaves `push` refuses with "Tree is full", while a `batch_push` of one
item commits, returns `|D|` and leaves a reachable store of `2 ^ 63` leaves. A batch of more
items panics at leaf `2 ^ 63`, whose index `2 * 2 ^ 63` does not fit a `u64`, rather than wrap. -/
theorem batch_commits_past_push_bound {D : List T} {d : T} (h : t.Reachable D s)
    (hD : D.length = u64Max / 2) (hd : ∃ bytes, t.codec.serialize d = .ok bytes) :
    Throws (t.push d) (.ofStore s) (.inconsistentState "Tree is full") ∧
      ((t.batchPush [d]).run.run (.ofStore s)).1 = some (.ok D.length) ∧
      t.Reachable (D ++ [d]) ((t.batchPush [d]).run.run (.ofStore s)).2.kv ∧
      ((t.batchPush [d]).run.run (.ofStore s)).2.kv metaKey = some (be64 (2 ^ 63)) ∧
      ∀ (L : List T) (E : WriteBatch), 1 < L.length →
        Panics (t.batchPushWithData L E) (.ofStore s) := by
  have h63 : D.length + 1 = 2 ^ 63 := by rw [hD]; unfold u64Max; omega
  have hc : ((t.batchPush [d]).run.run (.ofStore s)).1 = some (.ok D.length) :=
    h.batchPushWithData_commits [] (by simp; omega) (by simpa using hd)
  have hr : t.Reachable (D ++ [d]) ((t.batchPush [d]).run.run (.ofStore s)).2.kv :=
    .batchPush (b := .ofStore s) h hc
  obtain ⟨⟨ext, hs⟩, -, -⟩ := h.storeInv
  obtain ⟨⟨ext', hs'⟩, -, -⟩ := hr.storeInv
  refine ⟨?_, hc, hr, ?_, fun L E hL => reachable_batch_overflows t h (by omega) (by omega)⟩
  · unfold push
    refine (t.len_yields (hs ▸ treeStore_metaKey) (by omega)).bind_throws ?_
    simp only [if_pos (show D.length ≥ u64Max / 2 by omega)]
    exact Throws.bind (Throws.throw _)
  · rw [hs', treeStore_metaKey, List.length_append, List.length_singleton, h63]

theorem batch_commits_past_push_bound_at_full :
    toy.Reachable (List.replicate (u64Max / 2) 0) (toy.batchStore (List.replicate (u64Max / 2) 0)) ∧
      Throws (toy.push 0) (.ofStore (toy.batchStore (List.replicate (u64Max / 2) 0)))
        (.inconsistentState "Tree is full") ∧
      ((toy.batchPush [0]).run.run (.ofStore (toy.batchStore (List.replicate (u64Max / 2) 0)))).1 =
        some (.ok (List.replicate (u64Max / 2) 0).length) ∧
      ((toy.batchPush [0]).run.run
        (.ofStore (toy.batchStore (List.replicate (u64Max / 2) 0)))).2.kv metaKey =
        some (be64 (2 ^ 63)) :=
  have hr : toy.Reachable (List.replicate (u64Max / 2) 0)
      (toy.batchStore (List.replicate (u64Max / 2) 0)) :=
    toy.reachable_batchStore rfl ((Reachable.new (t := toy) (b := .ofStore fun _ => none) rfl
      rfl).batchPushWithData_commits []
        (by rw [List.length_nil, List.length_replicate]; unfold u64Max; omega) fun _ _ => ⟨_, rfl⟩)
  have hc := batch_commits_past_push_bound hr (List.length_replicate _ _) ⟨_, rfl⟩
  ⟨hr, hc.1, hc.2.1, hc.2.2.2.1⟩

end SlateDbBackedTree

end CompactLog
