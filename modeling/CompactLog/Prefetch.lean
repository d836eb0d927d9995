import CompactLog.Writer

/-! The reads of the appends: a batch reads `meta`, then each prefetched node once and in
increasing order; `push` reads `meta`, then the sibling of each node on its walk. -/

namespace CompactLog

section Prefetch

variable {b : Backend}

theorem nodesToPrefetch_quiet (S k : Nat) :
    Quiet (nodesToPrefetch S k) b fun P => P.Sorted (· < ·) ∧ ∀ x, x ∈ P ↔
      ∃ i < k, ∃ cur ∈ climb (S + i + 1) (S + i + 1) (2 * (S + i)),
        sibling cur (S + i + 1) = x ∧ x < 2 * S := by
  unfold nodesToPrefetch
  refine (Quiet.foldlM (fun pre set => set.Sorted (· < ·) ∧ ∀ x, x ∈ set ↔
      ∃ i ∈ pre, ∃ cur ∈ climb (S + i + 1) (S + i + 1) (2 * (S + i)),
        sibling cur (S + i + 1) = x ∧ x < 2 * S) _ (fun pre i rest set _ ⟨hs, hm⟩ => ?_)
      ⟨List.sorted_nil, by simp⟩).mono fun P ⟨hs, hm⟩ => ⟨hs, fun x => by simp [hm x]⟩
  refine (checkedAdd_quiet S i).bind fun _ ⟨e1, _⟩ => (checkedAdd_quiet _ 1).bind fun _ ⟨e2, _⟩ =>
    (internalOfLeaf_quiet _).bind fun _ ⟨e3, _⟩ => ?_
  subst e1 e2 e3
  refine (Quiet.foldlM (fun pre' set' => set'.Sorted (· < ·) ∧ ∀ x, x ∈ set' ↔ x ∈ set ∨
      ∃ cur ∈ pre', sibling cur (S + i + 1) = x ∧ x < 2 * S) _
      (fun pre' cur rest' set' _ ⟨hs', hm'⟩ => ?step) ⟨hs, by simp⟩).mono
      fun set' ⟨hs', hm'⟩ => ⟨hs', fun x => ?last⟩
  case step =>
    refine (checkedMul_quiet S 2).bind fun _ ⟨e4, _⟩ => Quiet.pure ?_
    subst e4
    split_ifs with hlt
    · refine ⟨sorted_btreeInsert hs' _, fun x => ?_⟩
      rw [mem_btreeInsert, hm']
      simp only [List.mem_append, List.mem_singleton]
      constructor
      · rintro (rfl | h | ⟨c, hc, h⟩)
        · exact .inr ⟨cur, .inr rfl, rfl, by omega⟩
        · exact .inl h
        · exact .inr ⟨c, .inl hc, h⟩
      · rintro (h | ⟨c, hc | rfl, h⟩)
        · exact .inr (.inl h)
        · exact .inr (.inr ⟨c, hc, h⟩)
        · exact .inl h.1.symm
    · refine ⟨hs', fun x => ?_⟩
      rw [hm']
      simp only [List.mem_append, List.mem_singleton]
      constructor
      · rintro (h | ⟨c, hc, h⟩)
        · exact .inl h
        · exact .inr ⟨c, .inl hc, h⟩
      · rintro (h | ⟨c, hc | rfl, h⟩)
        · exact .inl h
        · exact .inr ⟨c, hc, h⟩
        · exact absurd h.2 (by rw [← h.1]; omega)
  case last =>
    rw [hm', hm]
    simp only [List.mem_append, List.mem_singleton]
    constructor
    · rintro (⟨j, hj, h⟩ | h)
      · exact ⟨j, .inl hj, h⟩
      · exact ⟨i, .inr rfl, h⟩
    · rintro ⟨j, hj | rfl, h⟩
      · exact .inl ⟨j, hj, h⟩
      · exact .inr h

end Prefetch

/-- One entry of the prefetch pass, the body of its loop: a node read with bytes of the hash
width is kept. -/
def prefetchInsert (H : Hasher) (prefetched : Nat → Option Bytes) (r : Nat × Option Bytes) :
    Nat → Option Bytes :=
  match r.2 with
  | some bytes =>
    if bytes.length = H.outputSize then Function.update prefetched r.1 (some bytes) else prefetched
  | none => prefetched

theorem prefetchInsert_apply (H : Hasher) (m : Nat → Option Bytes) (r : Nat × Option Bytes)
    (y : Nat) : prefetchInsert H m r y =
      if y = r.1 then ((r.2).filter fun h => h.length = H.outputSize).or (m y) else m y := by
  obtain ⟨a, _ | bytes⟩ := r
  · simp [prefetchInsert]
  · by_cases hb : bytes.length = H.outputSize <;> by_cases hy : y = a <;>
      simp [prefetchInsert, hb, hy, Option.filter, Function.update_apply]

theorem foldl_prefetchInsert (H : Hasher) (g : Nat → Option Bytes) :
    ∀ (l : List Nat) (m : Nat → Option Bytes) (y : Nat),
      (l.map fun a => (a, g a)).foldl (prefetchInsert H) m y =
        if y ∈ l then ((g y).filter fun h => h.length = H.outputSize).or (m y) else m y
  | [], m, y => by simp
  | a :: l, m, y => by
    rw [List.map_cons, List.foldl_cons, foldl_prefetchInsert H g l, prefetchInsert_apply]
    by_cases hy : y = a
    · subst hy
      cases (g y).filter fun h => h.length = H.outputSize <;> simp
    · simp [hy]

theorem reads_mapM_get (d : DbHandle) (s : Store) :
    ∀ P : List Nat, (P.mapM fun idx => d.get (nodeKey idx)).run.reads (.ofStore s) = P.map nodeKey
  | [] => rfl
  | x :: P => by
    have hm : Yields (P.mapM fun idx => d.get (nodeKey idx)) (.ofStore s)
        (P.map fun idx => s (nodeKey idx)) := Yields.mapM _ fun idx _ => d.get_yields _
    rw [List.mapM_cons, (d.get_yields _).reads_bind, hm.reads_bind, reads_mapM_get d s P,
      reads_pure, DbHandle.get_reads]
    simp

namespace SlateDbBackedTree

variable {T : Type} (t : SlateDbBackedTree T)

theorem prefetchNodes_eq (P : List Nat) : t.prefetchNodes P =
    if P.isEmpty then pure fun _ => none else do
      let results ← P.mapM fun idx => t.db.get (nodeKey idx)
      return (P.zip results).foldl (prefetchInsert t.hasher) fun _ => none := rfl

theorem prefetchNodes_yields (s : Store) (P : List Nat) :
    Yields (t.prefetchNodes P) (.ofStore s) (fun y =>
      if y ∈ P then (s (nodeKey y)).filter fun h => h.length = t.hasher.outputSize else none) ∧
    (t.prefetchNodes P).run.reads (.ofStore s) = P.map nodeKey := by
  rw [prefetchNodes_eq]
  split
  · obtain rfl := List.isEmpty_iff.mp ‹_›
    exact ⟨by simpa using Yields.pure _, rfl⟩
  · have hm : Yields (P.mapM fun idx => t.db.get (nodeKey idx)) (.ofStore s)
        (P.map fun idx => s (nodeKey idx)) := Yields.mapM _ fun idx _ => t.db.get_yields _
    have hz := List.zip_map' id (fun idx => s (nodeKey idx)) (l := P)
    simp only [List.map_id, id] at hz
    have hf : (P.zip (P.map fun idx => s (nodeKey idx))).foldl (prefetchInsert t.hasher)
        (fun _ => none) = fun y => if y ∈ P then (s (nodeKey y)).filter
          (fun h => h.length = t.hasher.outputSize) else none :=
      funext fun y => by rw [hz, foldl_prefetchInsert]; simp
    refine ⟨hm.bind ?_, by rw [hm.reads_bind, reads_mapM_get, reads_pure, List.append_nil]⟩
    dsimp only
    rw [hf]
    exact Yields.pure _

variable {b : Backend}

theorem batchSiblingHash_quiet {prefetched computed : Nat → Option Bytes} {c x : Nat}
    (h : computed x ≠ none ∨ prefetched x ≠ none) :
    Quiet (t.batchSiblingHash prefetched computed c x) b fun _ => True := by
  unfold batchSiblingHash
  rcases hc : computed x with _ | hash
  · obtain ⟨hash, hp⟩ := Option.ne_none_iff_exists'.mp (h.resolve_left (by simp [hc]))
    refine (checkedMul_quiet c 2).bind fun bound _ => ?_
    dsimp only
    split
    · exact Quiet.pure trivial
    · simp only [pure_bind, hp]
      exact Quiet.pure trivial
  · exact Quiet.pure trivial

theorem batchClimb_quiet {prefetched : Nat → Option Bytes} {n : Nat} (cs : List Nat) :
    ∀ (curHash : Bytes) (st : BatchState),
      (∀ cur ∈ cs, st.computed (sibling cur n) ≠ none ∨ prefetched (sibling cur n) ≠ none) →
      Quiet (t.batchClimb prefetched n cs curHash st) b fun _ => True := by
  induction cs with
  | nil => exact fun _ _ _ => Quiet.pure trivial
  | cons cur cs ih =>
    intro curHash st h
    refine (t.batchSiblingHash_quiet (h cur (List.mem_cons_self _ _))).bind fun _ _ =>
      ih _ _ fun c hc => (h c (List.mem_cons_of_mem _ hc)).imp_left fun h' => ?_
    simp only [Function.update_apply]
    split_ifs <;> simp [h']

variable {F : List T} {S c : Nat} {ext : Store} {st : BatchState}

theorem BatchInv.computed_or_old (hinv : t.BatchInv F S ext c st) {cur : Nat}
    (hcur : cur ∈ climb (c + 1) (c + 1) (2 * c)) :
    st.computed (sibling cur (c + 1)) ≠ none ∨ sibling cur (c + 1) + 2 ≤ 2 * S := by
  obtain ⟨-, q, hq, hw, hx⟩ := sibling_of_mem_climb hcur
  by_cases hqS : S < q
  · exact .inl (hinv.complete q _ hqS hq hw)
  · exact .inr (by omega)

theorem batchPushItem_quiet {prefetched : Nat → Option Bytes}
    (hpf : ∀ y h, prefetched y = some h → b.kv (nodeKey y) = some h)
    (hb : b.kv = treeStore t.hasher t.codec (F.take S) ext) (hSc : S ≤ c) (hc : c < F.length)
    (hinv : t.BatchInv F S ext c st)
    (hpre : ∀ cur ∈ climb (c + 1) (c + 1) (2 * c), sibling cur (c + 1) + 2 ≤ 2 * S →
      prefetched (sibling cur (c + 1)) ≠ none) :
    Quiet (t.batchPushItem prefetched st F[c]) b fun st' =>
      t.BatchInv F S ext (c + 1) st' ∧ c < 2 ^ 63 ∧ ∃ bytes, t.codec.serialize F[c] = .ok bytes := by
  refine ⟨t.batchPushItem_returns hpf hb hSc hc hinv, ?_⟩
  have : Quiet (t.batchPushItem prefetched st F[c]) b fun _ => True := by
    unfold batchPushItem
    refine (encodeLeaf_quiet _ _).bind fun _ _ => (checkedAdd_quiet _ 1).bind fun _ ⟨e1, _⟩ =>
      (internalOfLeaf_quiet _).bind fun _ ⟨e2, _⟩ => ?_
    rw [hinv.current] at e1 e2
    subst e1 e2
    refine (t.batchClimb_quiet _ _ _ fun cur hcur => ?_).bind fun _ _ => Quiet.pure trivial
    rcases BatchInv.computed_or_old t hinv hcur with h | h
    · left
      simp only [Function.update_apply]
      split_ifs <;> simp [h]
    · exact .inr (hpre cur hcur h)
  exact this.2

theorem batchPushItems_quiet {D L : List T} {prefetched : Nat → Option Bytes}
    (hpf : ∀ y h, prefetched y = some h → b.kv (nodeKey y) = some h)
    (hb : b.kv = treeStore t.hasher t.codec D ext)
    (hpre : ∀ p, D.length ≤ p → p < D.length + L.length → ∀ cur ∈ climb (p + 1) (p + 1) (2 * p),
      sibling cur (p + 1) + 2 ≤ 2 * D.length → prefetched (sibling cur (p + 1)) ≠ none) :
    Quiet (L.foldlM (t.batchPushItem prefetched) ⟨D.length, [], fun _ => none⟩) b fun _ => True := by
  have hF : (D ++ L).take D.length = D := List.take_left' rfl
  refine (Quiet.foldlM (fun pre st => t.BatchInv (D ++ L) D.length ext (D.length + pre.length) st) L
    (fun pre x rest st he hinv => ?_) (t.batchInv_start (by simp))).mono fun _ _ => trivial
  have hc : D.length + pre.length < (D ++ L).length := by rw [← he]; simp
  have hx : (D ++ L)[D.length + pre.length] = x := by
    subst he
    simp [List.getElem_append_right]
  rw [← hx]
  refine (t.batchPushItem_quiet hpf (hF.symm ▸ hb) (by omega) hc hinv
    fun cur hcur h => hpre _ (by omega) (by simpa using hc) cur hcur h).mono
    fun st' ⟨hinv', _⟩ => by simpa [Nat.add_assoc] using hinv'

theorem Reachable.nodeKey_old {D : List T} {s : Store} (h : t.Reachable D s) {x : Nat}
    (hx : x + 2 ≤ 2 * D.length) :
    ∃ hash, s (nodeKey x) = some hash ∧ hash.length = t.hasher.outputSize := by
  obtain ⟨⟨ext, hs⟩, hD, -⟩ := h.storeInv
  exact ⟨_, by rw [hs, treeStore_nodeKey (by omega), if_pos hx], nodeHash_length⟩

theorem batchPushWithData_reads_eq {D L : List T} {E : WriteBatch} {s : Store} {P : List Nat}
    (h : t.Reachable D s) (hk : D.length + L.length ≤ 2 ^ 63)
    (hP : Yields (nodesToPrefetch D.length L.length) (.ofStore s) P) :
    (t.batchPushWithData L E).run.reads (.ofStore s) = metaKey :: P.map nodeKey := by
  obtain ⟨⟨ext, hs⟩, hD, -⟩ := h.storeInv
  have hmem := ((nodesToPrefetch_quiet D.length L.length).1.2 P (by rw [hP])).2
  obtain ⟨hpf, hpfr⟩ := t.prefetchNodes_yields s P
  have hsound : ∀ y h, (if y ∈ P then (s (nodeKey y)).filter
      (fun h => h.length = t.hasher.outputSize) else none) = some h → s (nodeKey y) = some h :=
    fun y h hy => by
      split_ifs at hy
      exact (Option.filter_eq_some.mp hy).1
  have hcover : ∀ p, D.length ≤ p → p < D.length + L.length →
      ∀ cur ∈ climb (p + 1) (p + 1) (2 * p), sibling cur (p + 1) + 2 ≤ 2 * D.length →
      (if sibling cur (p + 1) ∈ P then (s (nodeKey (sibling cur (p + 1)))).filter
        (fun h => h.length = t.hasher.outputSize) else none) ≠ none := fun p hp hp' cur hcur hx => by
    obtain ⟨i, rfl⟩ : ∃ i, p = D.length + i := ⟨p - D.length, by omega⟩
    obtain ⟨hash, hs, hl⟩ := h.nodeKey_old t hx
    have hin : sibling cur (D.length + i + 1) ∈ P :=
      (hmem _).mpr ⟨i, by omega, cur, hcur, rfl, by omega⟩
    simp [hin, hs, hl]
  unfold batchPushWithData
  rw [(t.len_yields (hs ▸ treeStore_metaKey) (by omega)).reads_bind, t.len_reads,
    List.singleton_append]
  dsimp only
  split
  next hLE =>
    obtain rfl : L = [] := List.isEmpty_iff.mp (Bool.and_eq_true_iff.mp hLE).1
    obtain rfl : P = [] :=
      List.eq_nil_iff_forall_not_mem.mpr fun x hx => by simpa using (hmem x).mp hx
    rfl
  · rw [pure_bind, hP.reads_bind, (nodesToPrefetch_quiet _ _).2, hpf.reads_bind, hpfr,
      List.nil_append, reads_bind_of_right, (t.batchPushItems_quiet hsound hs hcover).2,
      List.append_nil]
    intro _ _
    rw [reads_bind_of_right, DbHandle.write_reads]
    intro _ _
    rfl

/-- The reads of `batch_push_with_data` on a reachable store over `D`, for a batch that keeps
the tree within `2 ^ 63` leaves: `meta`, then each node `P` collects, once and in increasing
order, and nothing after. `P` holds the siblings below `2 * |D|` on the walks of the new leaves;
each is a node of the tree before the batch with a hash stored, except `2 * |D| - 1`, which that
tree never has. The second loop finds every other sibling computed or prefetched. -/
theorem batchPushWithData_reads {D L : List T} {E : WriteBatch} {s : Store} (h : t.Reachable D s)
    (hk : D.length + L.length ≤ 2 ^ 63) :
    ∃ P, Yields (nodesToPrefetch D.length L.length) (.ofStore s) P ∧
      (t.batchPushWithData L E).run.reads (.ofStore s) = metaKey :: P.map nodeKey ∧
      P.Sorted (· < ·) ∧
      ∀ x ∈ P, (∃ p, D.length ≤ p ∧ p < D.length + L.length ∧
          ∃ cur ∈ climb (p + 1) (p + 1) (2 * p), sibling cur (p + 1) = x) ∧
        (x = 2 * D.length - 1 ∨
          ∃ hash, s (nodeKey x) = some hash ∧ hash.length = t.hasher.outputSize) := by
  obtain ⟨P, hP⟩ := nodesToPrefetch_yields (b := .ofStore s) hk
  obtain ⟨hsort, hmem⟩ := (nodesToPrefetch_quiet D.length L.length).1.2 P (by rw [hP])
  refine ⟨P, hP, t.batchPushWithData_reads_eq h hk hP, hsort, fun x hx => ?_⟩
  obtain ⟨i, hi, cur, hcur, rfl, hlt⟩ := (hmem x).mp hx
  refine ⟨⟨D.length + i, by omega, by omega, cur, hcur, rfl⟩, ?_⟩
  by_cases h2 : sibling cur (D.length + i + 1) + 2 ≤ 2 * D.length
  · exact .inr (h.nodeKey_old t h2)
  · exact .inl (by omega)

theorem batch_after_five_reads :
    toy.Reachable [1, 2, 3, 4, 5] (toy.batchStore [1, 2, 3, 4, 5]) ∧
      [1, 2, 3, 4, 5].length + [6, 7].length ≤ 2 ^ 63 ∧
      ∃ P, Yields (nodesToPrefetch [1, 2, 3, 4, 5].length [6, 7].length)
          (.ofStore (toy.batchStore [1, 2, 3, 4, 5])) P ∧
        (toy.batchPushWithData [6, 7] []).run.reads (.ofStore (toy.batchStore [1, 2, 3, 4, 5])) =
          metaKey :: P.map nodeKey ∧
        P.Sorted (· < ·) ∧
        ∀ x ∈ P, (∃ p, [1, 2, 3, 4, 5].length ≤ p ∧ p < [1, 2, 3, 4, 5].length + [6, 7].length ∧
            ∃ cur ∈ climb (p + 1) (p + 1) (2 * p), sibling cur (p + 1) = x) ∧
          (x = 2 * [1, 2, 3, 4, 5].length - 1 ∨ ∃ hash,
            toy.batchStore [1, 2, 3, 4, 5] (nodeKey x) = some hash ∧
              hash.length = toy.hasher.outputSize) :=
  have h : toy.Reachable [1, 2, 3, 4, 5] (toy.batchStore [1, 2, 3, 4, 5]) :=
    toy.reachable_batchStore (r := 0) rfl rfl
  ⟨h, by decide, batchPushWithData_reads toy (L := [6, 7]) (E := []) h (by decide)⟩

section Push

variable {s : Store} {n : Nat}

theorem readHash_reads (bytes : Bytes) (b : Backend) : (t.readHash bytes).run.reads b = [] := by
  unfold readHash
  split <;> rfl

theorem recalculateClimb_reads
    (hs : ∀ x h, s (nodeKey x) = some h → h.length = t.hasher.outputSize) :
    ∀ f a m (batch : WriteBatch) (computed : Nat → Option Bytes), OnFrontier n a m → n - m ≤ f →
      computed (subtreeRoot a m) ≠ none →
      (∀ x, computed x ≠ none → ∃ a₀ m₀, OnFrontier n a₀ m₀ ∧ a ≤ a₀ ∧ x = subtreeRoot a₀ m₀) →
      (t.recalculateClimb n (climb n f (subtreeRoot a m)) batch computed).run.reads (.ofStore s) =
        (climb n f (subtreeRoot a m)).map fun cur => nodeKey (sibling cur n) := by
  intro f
  induction f with
  | zero => intro _ _ _ _ _ _ _ _; rfl
  | succ f ih =>
    intro a m batch computed hf hfuel hcur hinv
    by_cases hmn : m < n
    · obtain ⟨a', m', hf', hlt, ha, hc, hp, hsib, -⟩ := hf.climb_step (f := f) hmn
      have h2 : 2 ≤ m' := by have := hf.1; omega
      have hnone : computed (subtreeRoot a' (split m')) = none := by
        by_contra hne
        obtain ⟨a₀, m₀, hf₀, ha₀, he⟩ := hinv _ hne
        have := (subtreeRoot_inj (by omega) (hf'.subtree.left_child h2) hf₀.subtree he).1
        have := one_le_split h2
        omega
      have hrec : ∀ sh batch', (t.recalculateClimb n (climb n f (subtreeRoot a' m')) batch'
          (Function.update computed (subtreeRoot a' m') (some sh))).run.reads (.ofStore s) =
          (climb n f (subtreeRoot a' m')).map fun cur => nodeKey (sibling cur n) := fun sh batch' =>
        ih a' m' batch' _ hf' (by omega) (by simp) fun x hx => by
          by_cases e : x = subtreeRoot a' m'
          · exact ⟨a', m', hf', le_rfl, e⟩
          · obtain ⟨a₀, m₀, hf₀, ha₀, he⟩ := hinv x (by simpa [Function.update_noteq e] using hx)
            exact ⟨a₀, m₀, hf₀, by omega, he⟩
      obtain ⟨h, hh⟩ := Option.ne_none_iff_exists'.mp hcur
      rw [hc, List.map_cons, hsib]
      simp only [recalculateClimb, pathSiblingHash, hp, hsib, hh, hnone, pure_bind, bind_assoc]
      rw [(t.db.get_yields _).reads_bind, DbHandle.get_reads, List.singleton_append]
      congr 1
      rcases hv : s (nodeKey (subtreeRoot a' (split m'))) with _ | bytes
      · simp only [pure_bind]
        exact hrec _ _
      · simp only
        rw [(t.readHash_yields (hs _ _ hv)).reads_bind, readHash_reads, List.nil_append]
        exact hrec _ _
    · obtain ⟨rfl, rfl⟩ := hf.eq_top (by omega)
      rw [hf.climb_top]
      rfl

theorem push_reads {D : List T} {d : T} (h : t.Reachable D s) (hS : D.length < u64Max / 2)
    (hd : ∃ bytes, t.codec.serialize d = .ok bytes) :
    (t.push d).run.reads (.ofStore s) = metaKey ::
      (climb (D.length + 1) (D.length + 1) (2 * D.length)).map
        fun cur => nodeKey (sibling cur (D.length + 1)) := by
  obtain ⟨⟨ext, hs⟩, hD, -⟩ := h.storeInv
  obtain ⟨bytes, hb⟩ := hd
  have h63 : D.length < 2 ^ 63 := by unfold u64Max at hS; omega
  have hlen : ∀ x h, s (nodeKey x) = some h → h.length = t.hasher.outputSize := fun x h hx => by
    rw [hs, treeStore, parseKey_nodeKey] at hx
    dsimp only at hx
    split_ifs at hx
    cases hx
    exact nodeHash_length
  unfold push
  rw [(t.len_yields (hs ▸ treeStore_metaKey) (by omega)).reads_bind, t.len_reads,
    List.singleton_append]
  congr 1
  dsimp only
  rw [if_neg (by omega), pure_bind, (encodeLeaf_yields hb).reads_bind, (encodeLeaf_quiet _ _).2,
    (checkedAdd_yields (by unfold u64Max; omega)).reads_bind, (checkedAdd_quiet _ _).2,
    List.nil_append, List.nil_append, reads_bind_of_right]
  · have hi : Yields (internalOfLeaf D.length) (.ofStore s) (D.length * 2) :=
      checkedMul_yields (by unfold u64Max; omega)
    unfold recalculatePathBatch
    rw [hi.reads_bind, (internalOfLeaf_quiet _).2, List.nil_append, Nat.mul_comm,
      ← subtreeRoot_of_le_one (le_refl 1)]
    exact t.recalculateClimb_reads hlen _ _ _ _ _ ⟨le_rfl, rfl, by simp [width]⟩ (by omega)
      (by simp) fun x hx => ⟨D.length, 1, ⟨le_rfl, rfl, by simp [width]⟩, le_rfl, by
        by_contra e
        exact hx (by simp [Function.update_noteq e])⟩
  · intro _ _
    rw [reads_bind_of_right, (checkedAdd_quiet _ _).2]
    intro _ _
    exact DbHandle.write_reads _ _

theorem climb_siblings_desc : ∀ f a m, OnFrontier n a m → n - m ≤ f →
    ((climb n f (subtreeRoot a m)).map (sibling · n)).Sorted (· > ·) ∧
      ∀ x ∈ (climb n f (subtreeRoot a m)).map (sibling · n), x + 2 ≤ 2 * a := by
  intro f
  induction f with
  | zero => intro _ _ _ _; simp [climb]
  | succ f ih =>
    intro a m hf hfuel
    by_cases hmn : m < n
    · obtain ⟨a', m', hf', hlt, ha, hc, -, hsib, -⟩ := hf.climb_step (f := f) hmn
      obtain ⟨hsort, hbelow⟩ := ih a' m' hf' (by omega)
      have hb := subtreeRoot_bounds a' (one_le_split (by have := hf.1; omega : 2 ≤ m'))
      rw [hc, List.map_cons, hsib]
      refine ⟨List.sorted_cons.mpr ⟨fun x hx => by have := hbelow x hx; omega, hsort⟩,
        fun x hx => ?_⟩
      rcases List.mem_cons.mp hx with rfl | hx
      · omega
      · have := hbelow x hx
        omega
    · obtain ⟨rfl, rfl⟩ := hf.eq_top (by omega)
      rw [hf.climb_top]
      simp

/-- On a reachable store, `push(d)` and `batch_push([d])` read the same keys: `meta`, then the
siblings on the walk of the new leaf. `push` reads them bottom up, as its walk meets them;
`batch_push` prefetches them first, in increasing order, which is top down. -/
theorem push_and_batch_reads {D : List T} {d : T} (h : t.Reachable D s)
    (hS : D.length < u64Max / 2) (hd : ∃ bytes, t.codec.serialize d = .ok bytes) :
    (t.push d).run.reads (.ofStore s) = metaKey ::
      (climb (D.length + 1) (D.length + 1) (2 * D.length)).map
        (fun cur => nodeKey (sibling cur (D.length + 1))) ∧
    (t.batchPush [d]).run.reads (.ofStore s) = metaKey ::
      ((climb (D.length + 1) (D.length + 1) (2 * D.length)).map
        (fun cur => nodeKey (sibling cur (D.length + 1)))).reverse := by
  refine ⟨t.push_reads h hS hd, ?_⟩
  have hk : D.length + [d].length ≤ 2 ^ 63 := by
    rw [List.length_singleton]
    unfold u64Max at hS
    omega
  obtain ⟨P, hP⟩ := nodesToPrefetch_yields (b := .ofStore s) hk
  obtain ⟨hsort, hmem⟩ := (nodesToPrefetch_quiet _ _).1.2 P (by rw [hP])
  have hf : OnFrontier (D.length + 1) D.length 1 := ⟨le_rfl, rfl, by simp [width]⟩
  obtain ⟨hdesc, hbelow⟩ := climb_siblings_desc (D.length + 1) _ _ hf (by omega)
  rw [subtreeRoot_of_le_one (le_refl 1)] at hdesc hbelow
  have hasc : ((climb (D.length + 1) (D.length + 1) (2 * D.length)).map
      (sibling · (D.length + 1))).reverse.Sorted (· < ·) := List.pairwise_reverse.mpr hdesc
  have hrev : P = ((climb (D.length + 1) (D.length + 1) (2 * D.length)).map
      (sibling · (D.length + 1))).reverse := by
    refine List.eq_of_perm_of_sorted ((List.perm_ext_iff_of_nodup hsort.nodup hasc.nodup).mpr
      fun x => ?_) hsort hasc
    rw [hmem, List.mem_reverse, List.mem_map]
    constructor
    · rintro ⟨i, hi, cur, hcur, rfl, -⟩
      obtain rfl : i = 0 := by simpa using hi
      exact ⟨cur, hcur, rfl⟩
    · rintro ⟨cur, hcur, rfl⟩
      exact ⟨0, by simp, cur, hcur, rfl, by
        have := hbelow _ (List.mem_map_of_mem _ hcur); omega⟩
  show (t.batchPushWithData [d] []).run.reads _ = _
  rw [t.batchPushWithData_reads_eq h hk hP, hrev, List.map_reverse, List.map_map]
  rfl

theorem push_six_after_five_reads :
    toy.Reachable [1, 2, 3, 4, 5] (toy.batchStore [1, 2, 3, 4, 5]) ∧
      [1, 2, 3, 4, 5].length < u64Max / 2 ∧ (∃ bytes, toy.codec.serialize 6 = .ok bytes) ∧
      (toy.push 6).run.reads (.ofStore (toy.batchStore [1, 2, 3, 4, 5])) = metaKey ::
        (climb ([1, 2, 3, 4, 5].length + 1) ([1, 2, 3, 4, 5].length + 1)
          (2 * [1, 2, 3, 4, 5].length)).map
          (fun cur => nodeKey (sibling cur ([1, 2, 3, 4, 5].length + 1))) ∧
      (toy.batchPush [6]).run.reads (.ofStore (toy.batchStore [1, 2, 3, 4, 5])) = metaKey ::
        ((climb ([1, 2, 3, 4, 5].length + 1) ([1, 2, 3, 4, 5].length + 1)
          (2 * [1, 2, 3, 4, 5].length)).map
          (fun cur => nodeKey (sibling cur ([1, 2, 3, 4, 5].length + 1)))).reverse :=
  have h : toy.Reachable [1, 2, 3, 4, 5] (toy.batchStore [1, 2, 3, 4, 5]) :=
    toy.reachable_batchStore (r := 0) rfl rfl
  have hS : [1, 2, 3, 4, 5].length < u64Max / 2 := by unfold u64Max; decide
  ⟨h, hS, ⟨_, rfl⟩, push_and_batch_reads toy h hS ⟨_, rfl⟩⟩

end Push

end SlateDbBackedTree

end CompactLog
