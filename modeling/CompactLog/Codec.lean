import Mathlib.Data.List.Basic
import Mathlib.Tactic.Ring

/-! The key-value layout: big-endian `u64` encoding and the four key namespaces `leaf:`,
`node:`, `vnode:` and `meta` of `SlateDbBackedTree`. -/

namespace CompactLog

abbrev Bytes := List UInt8

def beBytes : Nat → Nat → Bytes
  | 0, _ => []
  | k + 1, x => beBytes k (x / 256) ++ [UInt8.ofNat x]

/-- `x.to_be_bytes()` of a `u64`. -/
def be64 (x : Nat) : Bytes := beBytes 8 x

/-- `u64::from_be_bytes`, read from the most significant byte on. -/
def fromBe (bs : Bytes) : Nat := bs.foldl (fun acc b => acc * 256 + b.toNat) 0

def leafPrefix : Bytes := [108, 101, 97, 102, 58]

def nodePrefix : Bytes := [110, 111, 100, 101, 58]

def metaKey : Bytes := [109, 101, 116, 97]

def versionedNodePrefix : Bytes := [118, 110, 111, 100, 101, 58]

def leafKey (index : Nat) : Bytes := leafPrefix ++ be64 index

def nodeKey (index : Nat) : Bytes := nodePrefix ++ be64 index

/-- `versioned_node_key(index, version)`: the prefix, the index, `b'@'`, the version. -/
def versionedNodeKey (index version : Nat) : Bytes :=
  versionedNodePrefix ++ be64 index ++ [64] ++ be64 version

/-- The namespace a key belongs to, with the integers it encodes. -/
inductive KeyKind where
  | leaf (i : Nat)
  | node (x : Nat)
  | vnode (x v : Nat)
  | meta
deriving DecidableEq, Repr

/-- Which key encoder produced `key`, if any. -/
def parseKey (key : Bytes) : Option KeyKind :=
  if key = metaKey then some .meta
  else if key.length = 13 ∧ key.take 5 = leafPrefix then some (.leaf (fromBe (key.drop 5)))
  else if key.length = 13 ∧ key.take 5 = nodePrefix then some (.node (fromBe (key.drop 5)))
  else if key.length = 23 ∧ key.take 6 = versionedNodePrefix ∧ key.get? 14 = some 64 then
    some (.vnode (fromBe ((key.drop 6).take 8)) (fromBe (key.drop 15)))
  else none

/-- A key of one of the tree's four namespaces. -/
def IsTreeKey (key : Bytes) : Prop :=
  (∃ i, key = leafKey i) ∨ (∃ x, key = nodeKey x) ∨ (∃ x v, key = versionedNodeKey x v) ∨
    key = metaKey

theorem beBytes_length (k x : Nat) : (beBytes k x).length = k := by
  induction k generalizing x with
  | zero => rfl
  | succ k ih => simp [beBytes, ih]

@[simp] theorem be64_length (x : Nat) : (be64 x).length = 8 := beBytes_length 8 x

theorem fromBe_append (xs ys : Bytes) :
    fromBe (xs ++ ys) = fromBe xs * 256 ^ ys.length + fromBe ys := by
  induction ys using List.reverseRecOn with
  | nil => simp [fromBe]
  | append_singleton ys y ih =>
    simp only [fromBe, ← List.append_assoc, List.foldl_append, List.foldl_cons, List.foldl_nil,
      List.length_append, List.length_singleton] at ih ⊢
    rw [ih, Nat.pow_succ]
    ring

theorem toNat_ofNat_byte (x : Nat) : (UInt8.ofNat x).toNat = x % 256 := rfl

theorem fromBe_beBytes (k x : Nat) : fromBe (beBytes k x) = x % 256 ^ k := by
  induction k generalizing x with
  | zero => simp [beBytes, fromBe, Nat.mod_one]
  | succ k ih =>
    rw [beBytes, fromBe_append, ih]
    simp only [fromBe, List.foldl_cons, List.foldl_nil, Nat.zero_mul, Nat.zero_add,
      List.length_singleton, Nat.pow_one, toNat_ofNat_byte]
    have h : x % (256 ^ k * 256) = x % 256 + 256 * (x / 256 % 256 ^ k) := by
      rw [Nat.mul_comm, Nat.mod_mul]
    rw [Nat.pow_succ, h]
    omega

theorem fromBe_be64 (x : Nat) : fromBe (be64 x) = x % 2 ^ 64 := by
  rw [be64, fromBe_beBytes]
  norm_num

theorem ofNat_eq_byte {x : Nat} {y : UInt8} (h : x % 256 = y.toNat) : UInt8.ofNat x = y :=
  UInt8.eq_of_val_eq (Fin.ext h)

theorem beBytes_fromBe (bs : Bytes) : beBytes bs.length (fromBe bs) = bs := by
  induction bs using List.reverseRecOn with
  | nil => rfl
  | append_singleton xs y ih =>
    have hy : y.toNat < 256 := y.toNat_lt_size
    have e : fromBe (xs ++ [y]) = fromBe xs * 256 + y.toNat := by
      simp [fromBe_append, fromBe]
    rw [List.length_append, List.length_singleton, beBytes, e,
      show (fromBe xs * 256 + y.toNat) / 256 = fromBe xs by omega, ih,
      ofNat_eq_byte (show (fromBe xs * 256 + y.toNat) % 256 = y.toNat by omega)]

theorem be64_fromBe {bs : Bytes} (h : bs.length = 8) : be64 (fromBe bs) = bs := by
  rw [be64, ← h, beBytes_fromBe]

@[simp] theorem leafKey_length (i : Nat) : (leafKey i).length = 13 := by simp [leafKey, leafPrefix]
@[simp] theorem nodeKey_length (x : Nat) : (nodeKey x).length = 13 := by simp [nodeKey, nodePrefix]
@[simp] theorem versionedNodeKey_length (x v : Nat) : (versionedNodeKey x v).length = 23 := by
  simp [versionedNodeKey, versionedNodePrefix]

theorem ne_metaKey {key : Bytes} (h : key.length ≠ 4) : key ≠ metaKey := fun e => h (e ▸ rfl)

theorem parseKey_leafKey (i : Nat) : parseKey (leafKey i) = some (.leaf (i % 2 ^ 64)) := by
  rw [parseKey, if_neg (ne_metaKey (by simp)), if_pos ⟨by simp, List.take_left' rfl⟩, leafKey,
    List.drop_left' (by rfl : leafPrefix.length = 5), fromBe_be64]

theorem parseKey_nodeKey (x : Nat) : parseKey (nodeKey x) = some (.node (x % 2 ^ 64)) := by
  have h5 : (nodeKey x).take 5 = nodePrefix := List.take_left' rfl
  rw [parseKey, if_neg (ne_metaKey (by simp)), if_neg fun h => absurd (h5.symm.trans h.2) (by decide),
    if_pos ⟨by simp, h5⟩, nodeKey, List.drop_left' (by rfl : nodePrefix.length = 5), fromBe_be64]

theorem parseKey_versionedNodeKey (x v : Nat) :
    parseKey (versionedNodeKey x v) = some (.vnode (x % 2 ^ 64) (v % 2 ^ 64)) := by
  have e : versionedNodeKey x v = versionedNodePrefix ++ (be64 x ++ (64 :: be64 v)) := by
    simp [versionedNodeKey]
  have h14 : (versionedNodeKey x v).get? 14 = some 64 := by
    rw [e, List.get?_eq_getElem?, List.getElem?_append_right (by decide),
      List.getElem?_append_right (by simp [versionedNodePrefix])]
    simp [versionedNodePrefix]
  rw [parseKey, if_neg (ne_metaKey (by simp)), if_neg (by simp), if_neg (by simp),
    if_pos ⟨by simp, by rw [e]; exact List.take_left' rfl, h14⟩, e,
    List.drop_left' (by rfl : versionedNodePrefix.length = 6), List.take_left' (by simp)]
  simp [versionedNodePrefix, fromBe_be64, List.drop_append_eq_append_drop, List.drop_eq_nil_of_le]

theorem be64_mod (x : Nat) : be64 (x % 2 ^ 64) = be64 x := by
  rw [← fromBe_be64, be64_fromBe (be64_length x)]

@[simp] theorem leafKey_inj {i j : Nat} : leafKey i = leafKey j ↔ i % 2 ^ 64 = j % 2 ^ 64 := by
  refine ⟨fun h => by simpa [parseKey_leafKey] using congrArg parseKey h, fun h => ?_⟩
  rw [leafKey, leafKey, ← be64_mod, h, be64_mod]

@[simp] theorem nodeKey_inj {x y : Nat} : nodeKey x = nodeKey y ↔ x % 2 ^ 64 = y % 2 ^ 64 := by
  refine ⟨fun h => by simpa [parseKey_nodeKey] using congrArg parseKey h, fun h => ?_⟩
  rw [nodeKey, nodeKey, ← be64_mod, h, be64_mod]

@[simp] theorem versionedNodeKey_inj {x v y w : Nat} :
    versionedNodeKey x v = versionedNodeKey y w ↔ x % 2 ^ 64 = y % 2 ^ 64 ∧ v % 2 ^ 64 = w % 2 ^ 64 := by
  refine ⟨fun h => by simpa [parseKey_versionedNodeKey] using congrArg parseKey h, fun ⟨h, h'⟩ => ?_⟩
  rw [versionedNodeKey, versionedNodeKey, ← be64_mod x, h, be64_mod, ← be64_mod v, h', be64_mod]

@[simp] theorem leafKey_ne_nodeKey (i x : Nat) : leafKey i ≠ nodeKey x := fun h => by
  simpa [parseKey_leafKey, parseKey_nodeKey] using congrArg parseKey h

@[simp] theorem leafKey_ne_versionedNodeKey (i x v : Nat) : leafKey i ≠ versionedNodeKey x v :=
  fun h => by simpa [parseKey_leafKey, parseKey_versionedNodeKey] using congrArg parseKey h

@[simp] theorem nodeKey_ne_versionedNodeKey (x y v : Nat) : nodeKey x ≠ versionedNodeKey y v :=
  fun h => by simpa [parseKey_nodeKey, parseKey_versionedNodeKey] using congrArg parseKey h

@[simp] theorem nodeKey_ne_leafKey (x i : Nat) : nodeKey x ≠ leafKey i :=
  (leafKey_ne_nodeKey i x).symm

@[simp] theorem versionedNodeKey_ne_leafKey (x v i : Nat) : versionedNodeKey x v ≠ leafKey i :=
  (leafKey_ne_versionedNodeKey i x v).symm

@[simp] theorem versionedNodeKey_ne_nodeKey (y v x : Nat) : versionedNodeKey y v ≠ nodeKey x :=
  (nodeKey_ne_versionedNodeKey x y v).symm

@[simp] theorem leafKey_ne_metaKey (i : Nat) : leafKey i ≠ metaKey := ne_metaKey (by simp)

@[simp] theorem nodeKey_ne_metaKey (x : Nat) : nodeKey x ≠ metaKey := ne_metaKey (by simp)

@[simp] theorem versionedNodeKey_ne_metaKey (x v : Nat) : versionedNodeKey x v ≠ metaKey :=
  ne_metaKey (by simp)

def KeyKind.key : KeyKind → Bytes
  | .leaf i => leafKey i
  | .node x => nodeKey x
  | .vnode x v => versionedNodeKey x v
  | .meta => metaKey

theorem eq_of_parseKey {key : Bytes} {k : KeyKind} (h : parseKey key = some k) : key = k.key := by
  unfold parseKey at h
  split_ifs at h with h1 h2 h3 h4 <;> cases h
  · exact h1
  · conv_lhs => rw [← List.take_append_drop 5 key, h2.2, ← be64_fromBe (by simp [h2.1] : (key.drop 5).length = 8)]
    rfl
  · conv_lhs => rw [← List.take_append_drop 5 key, h3.2, ← be64_fromBe (by simp [h3.1] : (key.drop 5).length = 8)]
    rfl
  · obtain ⟨hl, hp, h14⟩ := h4
    have hd : key.drop 14 = 64 :: key.drop 15 := by
      rw [List.drop_eq_getElem_cons (by omega)]
      rw [List.get?_eq_getElem?, List.getElem?_eq_getElem (by omega)] at h14
      rw [Option.some.inj h14]
    have e : key = versionedNodePrefix ++ (key.drop 6).take 8 ++ [64] ++ key.drop 15 := by
      conv_lhs => rw [← List.take_append_drop 6 key, ← List.take_append_drop 8 (key.drop 6),
        List.drop_drop, hd, hp]
      simp
    conv_lhs => rw [e, ← be64_fromBe (by simp; omega : ((key.drop 6).take 8).length = 8),
      ← be64_fromBe (by simp; omega : (key.drop 15).length = 8)]
    rfl

theorem parseKey_leaf_lt {key : Bytes} {i : Nat} (h : parseKey key = some (.leaf i)) : i < 2 ^ 64 := by
  have e := parseKey_leafKey i
  rw [← show key = leafKey i from eq_of_parseKey h, h] at e
  simp only [Option.some.injEq, KeyKind.leaf.injEq] at e
  rw [e]; exact Nat.mod_lt _ (by norm_num)

theorem parseKey_node_lt {key : Bytes} {x : Nat} (h : parseKey key = some (.node x)) : x < 2 ^ 64 := by
  have e := parseKey_nodeKey x
  rw [← show key = nodeKey x from eq_of_parseKey h, h] at e
  simp only [Option.some.injEq, KeyKind.node.injEq] at e
  rw [e]; exact Nat.mod_lt _ (by norm_num)

theorem parseKey_vnode_lt {key : Bytes} {x v : Nat} (h : parseKey key = some (.vnode x v)) :
    x < 2 ^ 64 ∧ v < 2 ^ 64 := by
  have e := parseKey_versionedNodeKey x v
  rw [← show key = versionedNodeKey x v from eq_of_parseKey h, h] at e
  simp only [Option.some.injEq, KeyKind.vnode.injEq] at e
  rw [e.1, e.2]; exact ⟨Nat.mod_lt _ (by norm_num), Nat.mod_lt _ (by norm_num)⟩

theorem parseKey_metaKey : parseKey metaKey = some .meta := by simp [parseKey]

def KeyKind.InU64 : KeyKind → Prop
  | .leaf i => i < 2 ^ 64
  | .node x => x < 2 ^ 64
  | .vnode x v => x < 2 ^ 64 ∧ v < 2 ^ 64
  | .meta => True

theorem parseKey_key {k : KeyKind} (hk : k.InU64) : parseKey k.key = some k := by
  cases k with
  | leaf i => rw [KeyKind.key, parseKey_leafKey, Nat.mod_eq_of_lt hk]
  | node x => rw [KeyKind.key, parseKey_nodeKey, Nat.mod_eq_of_lt hk]
  | vnode x v =>
    rw [KeyKind.key, parseKey_versionedNodeKey, Nat.mod_eq_of_lt hk.1, Nat.mod_eq_of_lt hk.2]
  | meta => exact parseKey_metaKey

theorem parseKey_eq_none_iff {key : Bytes} : parseKey key = none ↔ ¬ IsTreeKey key := by
  constructor
  · rintro h (⟨i, rfl⟩ | ⟨x, rfl⟩ | ⟨x, v, rfl⟩ | rfl) <;>
      simp [parseKey_leafKey, parseKey_nodeKey, parseKey_versionedNodeKey, parseKey_metaKey] at h
  · intro h
    rcases hk : parseKey key with _ | k
    · rfl
    · refine absurd ?_ h
      rw [eq_of_parseKey hk]
      cases k with
      | leaf i => exact .inl ⟨i, rfl⟩
      | node x => exact .inr (.inl ⟨x, rfl⟩)
      | vnode x v => exact .inr (.inr (.inl ⟨x, v, rfl⟩))
      | meta => exact .inr (.inr (.inr rfl))

section Order

/-! The keys compare as `Vec<u8>` does: byte by byte, a proper prefix first. That is core's
`List.lt`, named here since Mathlib adds a second `LT (List α)`. -/

theorem byte_lt_iff {a b : UInt8} : a < b ↔ a.toNat < b.toNat := Iff.rfl

theorem fromBe_cons (a : UInt8) (bs : Bytes) :
    fromBe (a :: bs) = a.toNat * 256 ^ bs.length + fromBe bs := by
  rw [← List.singleton_append, fromBe_append]
  simp [fromBe]

theorem fromBe_lt (bs : Bytes) : fromBe bs < 256 ^ bs.length := by
  induction bs with
  | nil => simp [fromBe]
  | cons a bs ih =>
    have ha := a.toNat_lt_size
    have := Nat.mul_le_mul_right (256 ^ bs.length) (show a.toNat + 1 ≤ 256 by exact ha)
    rw [fromBe_cons, List.length_cons, Nat.pow_succ, Nat.add_mul, Nat.one_mul] at *
    omega

theorem fromBe_append_be64 (p : Bytes) {x : Nat} (hx : x < 2 ^ 64) :
    fromBe (p ++ be64 x) = fromBe p * 256 ^ 8 + x := by
  rw [fromBe_append, fromBe_be64, be64_length, Nat.mod_eq_of_lt hx]

theorem mul_add_lt_mul_add_iff {a b r r' P : Nat} (hr : r < P) (hr' : r' < P) :
    a * P + r < b * P + r' ↔ a < b ∨ a = b ∧ r < r' := by
  have step : ∀ {c d}, c < d → c * P + P ≤ d * P := fun h => by
    simpa [Nat.succ_mul] using Nat.mul_le_mul_right P (Nat.succ_le_of_lt h)
  constructor
  · intro h
    rcases Nat.lt_trichotomy a b with hab | rfl | hab
    · exact .inl hab
    · exact .inr ⟨rfl, by omega⟩
    · have := step hab
      omega
  · rintro (hab | ⟨rfl, h⟩)
    · have := step hab
      omega
    · omega

theorem lt_iff_fromBe_lt : ∀ {xs ys : Bytes}, xs.length = ys.length →
    (List.lt xs ys ↔ fromBe xs < fromBe ys)
  | [], [], _ => ⟨fun h => (nomatch h), fun h => absurd h (Nat.lt_irrefl _)⟩
  | [], _ :: _, h => absurd h (by simp)
  | _ :: _, [], h => absurd h (by simp)
  | a :: as, b :: bs, h => by
    have hl : as.length = bs.length := Nat.succ.inj h
    rw [fromBe_cons, fromBe_cons, hl,
      mul_add_lt_mul_add_iff (hl ▸ fromBe_lt as) (fromBe_lt bs), ← lt_iff_fromBe_lt hl]
    constructor
    · intro h'
      cases h' with
      | head _ _ hab => exact .inl hab
      | tail hab hba hlt =>
        rw [byte_lt_iff] at hab hba
        exact .inr ⟨by omega, hlt⟩
    · rintro (hab | ⟨hab, hlt⟩)
      · exact .head _ _ hab
      · exact .tail (by rw [byte_lt_iff]; omega) (by rw [byte_lt_iff]; omega) hlt

end Order

/-- The key encoders on `u64`s: `leaf_key`, `node_key`, `versioned_node_key` and `META_KEY` are
jointly injective, so their images are pairwise disjoint, and byte by byte each encoder orders
its keys as it orders its integers, the versioned keys by index, then by version. -/
theorem keys_injective_ordered :
    (∀ k k' : KeyKind, k.InU64 → k'.InU64 → (k.key = k'.key ↔ k = k')) ∧
    (∀ i j, i < 2 ^ 64 → j < 2 ^ 64 → (List.lt (leafKey i) (leafKey j) ↔ i < j)) ∧
    (∀ x y, x < 2 ^ 64 → y < 2 ^ 64 → (List.lt (nodeKey x) (nodeKey y) ↔ x < y)) ∧
    (∀ x v y w, x < 2 ^ 64 → v < 2 ^ 64 → y < 2 ^ 64 → w < 2 ^ 64 →
      (List.lt (versionedNodeKey x v) (versionedNodeKey y w) ↔ x < y ∨ x = y ∧ v < w)) := by
  refine ⟨fun k k' hk hk' => ⟨fun h => Option.some.inj ?_, fun h => h ▸ rfl⟩,
    fun i j hi hj => ?_, fun x y hx hy => ?_, fun x v y w hx hv hy hw => ?_⟩
  · rw [← parseKey_key hk, ← parseKey_key hk', h]
  · rw [lt_iff_fromBe_lt (by simp), leafKey, leafKey, fromBe_append_be64 _ hi,
      fromBe_append_be64 _ hj]
    omega
  · rw [lt_iff_fromBe_lt (by simp), nodeKey, nodeKey, fromBe_append_be64 _ hx,
      fromBe_append_be64 _ hy]
    omega
  · rw [lt_iff_fromBe_lt (by simp), versionedNodeKey, versionedNodeKey, fromBe_append_be64 _ hv,
      fromBe_append_be64 _ hw, fromBe_append (_ ++ be64 x), fromBe_append (_ ++ be64 y),
      fromBe_append_be64 _ hx,
      fromBe_append_be64 _ hy]
    simp only [List.length_singleton, show fromBe [64] = 64 from rfl]
    omega

theorem keys_at_byte_boundaries :
    leafKey 255 ≠ nodeKey 255 ∧ List.lt (leafKey 255) (leafKey 256) ∧
      List.lt (versionedNodeKey 1 (2 ^ 64 - 1)) (versionedNodeKey 2 0) :=
  ⟨fun h => (nomatch (keys_injective_ordered.1 (.leaf 255) (.node 255) (by decide : 255 < 2 ^ 64)
      (by decide : 255 < 2 ^ 64)).mp h),
    (keys_injective_ordered.2.1 255 256 (by decide) (by decide)).mpr (by decide),
    (keys_injective_ordered.2.2.2 1 (2 ^ 64 - 1) 2 0 (by decide) (by decide) (by decide)
      (by decide)).mpr (.inl (by decide))⟩

end CompactLog
