import CompactLog.TreeMath
import CompactLog.Codec

/-! The hash pipeline and RFC 6962's Merkle tree hash. Leaves and interior nodes are hashed
with the domain separation bytes `0x00` and `0x01`; the injected digest has one fixed width. -/

namespace CompactLog

/-- The injected digest `H`, with the fixed, nonzero width of its outputs. -/
structure Hasher where
  digest : Bytes → Bytes
  outputSize : Nat
  digest_length : ∀ b, (digest b).length = outputSize
  outputSize_pos : 0 < outputSize

/-- The application's leaf type as the tree uses it: the bytes its `HashableLeaf` instance
feeds the hasher, and bincode's serializer and deserializer. -/
structure LeafCodec (T : Type) where
  hashInput : T → Bytes
  serialize : T → Except String Bytes
  deserialize : Bytes → Except String T

/-- `digest::Output::<H>::default()`, the all-zero hash. -/
def Hasher.zero (H : Hasher) : Bytes := List.replicate H.outputSize 0

def Hasher.toy : Hasher where
  digest bs := [UInt8.ofNat (bs.foldl (fun acc x => acc * 31 + x.toNat) 7)]
  outputSize := 1
  digest_length _ := rfl
  outputSize_pos := Nat.one_pos

def LeafCodec.byte : LeafCodec Nat where
  hashInput n := [UInt8.ofNat n]
  serialize n := .ok [UInt8.ofNat n]
  deserialize
    | [x] => .ok x.toNat
    | _ => .error "invalid length"

section Hashes

variable {T : Type} (H : Hasher) (C : LeafCodec T)

/-- Modelled from the spec: `leaf_hash(item) = H(0x00 ‖ item)`. -/
def leafHash (item : T) : Bytes := H.digest (0 :: C.hashInput item)

/-- Modelled from the spec: `parent_hash(L, R) = H(0x01 ‖ L ‖ R)`. -/
def parentHash (l r : Bytes) : Bytes := H.digest (1 :: (l ++ r))

def mthAux : Nat → List T → Bytes
  | 0, _ => H.digest []
  | fuel + 1, D =>
    if 2 ≤ D.length then
      parentHash H (mthAux fuel (D.take (split D.length))) (mthAux fuel (D.drop (split D.length)))
    else match D with
      | [d] => leafHash H C d
      | _ => H.digest []

/-- RFC 6962's Merkle tree hash `MTH(D)`. -/
def mth (D : List T) : Bytes := mthAux H C D.length D

def slice (D : List T) (a b : Nat) : List T := (D.drop a).take (b - a)

end Hashes

section Lemmas

variable {T : Type} {H : Hasher} {C : LeafCodec T}

@[simp] theorem leafHash_length (item : T) : (leafHash H C item).length = H.outputSize :=
  H.digest_length _

@[simp] theorem parentHash_length (l r : Bytes) : (parentHash H l r).length = H.outputSize :=
  H.digest_length _

@[simp] theorem zero_length : H.zero.length = H.outputSize := List.length_replicate _ _

theorem mthAux_fuel :
    ∀ f g (D : List T), D.length ≤ f → D.length ≤ g → mthAux H C f D = mthAux H C g D := by
  intro f
  induction f with
  | zero => intro g D hf _; cases D <;> cases g <;> simp_all [mthAux]
  | succ f ih =>
    intro g D hf hg
    cases g with
    | zero => cases D <;> simp_all [mthAux]
    | succ g =>
      simp only [mthAux]
      split
      · have := split_lt (by assumption : 2 ≤ D.length)
        have := one_le_split (by assumption : 2 ≤ D.length)
        rw [ih g _ (by simp; omega) (by simp; omega), ih g _ (by simp; omega) (by simp; omega)]
      · rfl

@[simp] theorem mth_nil : mth H C ([] : List T) = H.digest [] := rfl

@[simp] theorem mth_singleton (d : T) : mth H C [d] = leafHash H C d := rfl

theorem mth_split {D : List T} (h : 2 ≤ D.length) :
    mth H C D = parentHash H (mth H C (D.take (split D.length)))
      (mth H C (D.drop (split D.length))) := by
  obtain ⟨f, hf⟩ : ∃ f, D.length = f + 1 := ⟨D.length - 1, by omega⟩
  have := split_lt h
  have := one_le_split h
  have e : mthAux H C D.length D = mthAux H C (f + 1) D := by rw [hf]
  rw [mth, e]
  simp only [mthAux, if_pos h]
  congr 1 <;> exact mthAux_fuel _ _ _ (by simp; omega) (by simp)

@[simp] theorem mth_length (D : List T) : (mth H C D).length = H.outputSize := by
  rcases D with _ | ⟨d, _ | ⟨e, D⟩⟩
  · exact H.digest_length _
  · exact H.digest_length _
  · rw [mth_split (by simp)]; exact H.digest_length _

theorem slice_length {D : List T} {a b : Nat} (h : b ≤ D.length) :
    (slice D a b).length = b - a := by
  simp only [slice, List.length_take, List.length_drop]
  omega

theorem slice_take (D : List T) (a b k : Nat) (hk : k ≤ b - a) :
    (slice D a b).take k = slice D a (a + k) := by
  simp [slice, List.take_take, Nat.min_eq_left hk]

theorem slice_drop (D : List T) (a b k : Nat) :
    (slice D a b).drop k = slice D (a + k) b := by
  simp only [slice, List.drop_take, List.drop_drop]
  congr 1; omega

theorem slice_append_of_le {D E : List T} {a b : Nat} (hab : a ≤ b) (h : b ≤ D.length) :
    slice (D ++ E) a b = slice D a b := by
  rw [slice, slice, List.drop_append_of_le_length (by omega),
    List.take_append_of_le_length (by simp; omega)]

theorem slice_zero (D : List T) : slice D 0 D.length = D := by simp [slice]

theorem slice_take_of_le {a b c : Nat} (h : b ≤ c) :
    slice (D.take c) a b = slice D a b := by
  rw [slice, slice, List.drop_take, List.take_take, Nat.min_eq_left (by omega)]

theorem mth_slice_split (D : List T) {a m : Nat} (hm : 2 ≤ m) (hD : a + m ≤ D.length) :
    mth H C (slice D a (a + m)) = parentHash H (mth H C (slice D a (a + split m)))
      (mth H C (slice D (a + split m) (a + m))) := by
  have hl : (slice D a (a + m)).length = m := by rw [slice_length hD]; omega
  rw [mth_split (by omega), hl, slice_take _ _ _ _ (by have := split_lt hm; omega),
    slice_drop]

end Lemmas

end CompactLog
