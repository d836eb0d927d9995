import CompactLog.Server
import Mathlib.Data.List.GetD

/-! The API serialization of proofs: the bytes cut into `HASH_SIZE` chunks, each in base64,
which lists the proof's hashes in order and determines the proof. -/

namespace CompactLog

/-- The characters of base64's standard alphabet, by value. -/
def base64Alphabet : List Char :=
  "ABCDEFGHIJKLMNOPQRSTUVWXYZabcdefghijklmnopqrstuvwxyz0123456789+/".toList

def base64Digit (v : Nat) : Char := base64Alphabet.getD v '='

/-- `base64::engine::general_purpose::STANDARD.encode`: four characters per three bytes, six bits
each of the group's 24-bit value; a last group of one or two bytes is padded with `=`. -/
def base64Chars : Bytes → List Char
  | a :: b :: c :: rest =>
    let v := a.toNat * 65536 + b.toNat * 256 + c.toNat
    base64Digit (v / 262144) :: base64Digit (v / 4096 % 64) :: base64Digit (v / 64 % 64) ::
      base64Digit (v % 64) :: base64Chars rest
  | [a, b] =>
    let v := a.toNat * 65536 + b.toNat * 256
    [base64Digit (v / 262144), base64Digit (v / 4096 % 64), base64Digit (v / 64 % 64), '=']
  | [a] =>
    let v := a.toNat * 65536
    [base64Digit (v / 262144), base64Digit (v / 4096 % 64), '=', '=']
  | [] => []

def base64Encode (bs : Bytes) : String := ⟨base64Chars bs⟩

example : base64Encode [77, 97, 110] = "TWFu" ∧ base64Encode [77, 97] = "TWE=" ∧
    base64Encode [77] = "TQ==" := by decide

section Base64

theorem base64Alphabet_length : base64Alphabet.length = 64 := rfl

theorem base64Alphabet_nodup : base64Alphabet.Nodup :=
  List.Nodup.of_map Char.toNat (by decide)

theorem base64Digit_of_lt {v : Nat} (hv : v < base64Alphabet.length) :
    base64Digit v = base64Alphabet[v] :=
  List.getD_eq_getElem _ _ hv

@[simp] theorem base64Digit_eq_pad {v : Nat} : base64Digit v = '=' ↔ 64 ≤ v := by
  rcases Nat.lt_or_ge v 64 with hv | hv
  · rw [base64Digit_of_lt hv]
    exact iff_of_false (fun h => (by decide : '=' ∉ base64Alphabet) (h ▸ List.getElem_mem _))
      (by omega)
  · exact iff_of_true (List.getD_eq_default _ _ (base64Alphabet_length ▸ hv)) hv

@[simp] theorem pad_eq_base64Digit {v : Nat} : '=' = base64Digit v ↔ 64 ≤ v :=
  eq_comm.trans base64Digit_eq_pad

theorem base64Digit_inj {u v : Nat} (hu : u < 64) (hv : v < 64) :
    base64Digit u = base64Digit v ↔ u = v := by
  rw [base64Digit_of_lt hu, base64Digit_of_lt hv, base64Alphabet_nodup.getElem_inj_iff]

theorem base64Digits_inj {v w : Nat} (hv : v < 2 ^ 24) (hw : w < 2 ^ 24)
    (h1 : base64Digit (v / 262144) = base64Digit (w / 262144))
    (h2 : base64Digit (v / 4096 % 64) = base64Digit (w / 4096 % 64))
    (h3 : base64Digit (v / 64 % 64) = base64Digit (w / 64 % 64))
    (h4 : base64Digit (v % 64) = base64Digit (w % 64)) : v = w := by
  have m : ∀ n, n % 64 < 64 := fun n => Nat.mod_lt n (by decide)
  rw [base64Digit_inj (by omega) (by omega)] at h1
  rw [base64Digit_inj (m _) (m _)] at h2 h3 h4
  omega

theorem base64Chars_injective : Function.Injective base64Chars := by
  intro xs
  induction xs using base64Chars.induct with
  | case1 a b c rest ih =>
    rintro (_ | ⟨a', _ | ⟨b', _ | ⟨c', rest'⟩⟩⟩) h <;>
      simp only [base64Chars, List.cons.injEq, base64Digit_eq_pad, reduceCtorEq] at h
    · omega
    · omega
    · obtain ⟨h1, h2, h3, h4, hr⟩ := h
      have : a.toNat < 256 := a.toNat_lt_size
      have : b.toNat < 256 := b.toNat_lt_size
      have : c.toNat < 256 := c.toNat_lt_size
      have : a'.toNat < 256 := a'.toNat_lt_size
      have : b'.toNat < 256 := b'.toNat_lt_size
      have : c'.toNat < 256 := c'.toNat_lt_size
      have hv := base64Digits_inj (by omega) (by omega) h1 h2 h3 h4
      exact congrArg₂ _ (UInt8.toNat.inj (by omega)) (congrArg₂ _ (UInt8.toNat.inj (by omega))
        (congrArg₂ _ (UInt8.toNat.inj (by omega)) (ih hr)))
  | case2 a b =>
    rintro (_ | ⟨a', _ | ⟨b', _ | ⟨c', rest'⟩⟩⟩) h <;>
      simp only [base64Chars, List.cons.injEq, base64Digit_eq_pad, pad_eq_base64Digit,
        reduceCtorEq] at h
    · omega
    · obtain ⟨h1, h2, h3, -⟩ := h
      have : a.toNat < 256 := a.toNat_lt_size
      have : b.toNat < 256 := b.toNat_lt_size
      have : a'.toNat < 256 := a'.toNat_lt_size
      have : b'.toNat < 256 := b'.toNat_lt_size
      have hv := base64Digits_inj (by omega) (by omega) h1 h2 h3 (congrArg base64Digit (by omega))
      exact congrArg₂ _ (UInt8.toNat.inj (by omega)) (congrArg₂ _ (UInt8.toNat.inj (by omega)) rfl)
    · omega
  | case3 a =>
    rintro (_ | ⟨a', _ | ⟨b', _ | ⟨c', rest'⟩⟩⟩) h <;>
      simp only [base64Chars, List.cons.injEq, base64Digit_eq_pad, pad_eq_base64Digit,
        reduceCtorEq] at h
    · obtain ⟨h1, h2, -⟩ := h
      have : a.toNat < 256 := a.toNat_lt_size
      have : a'.toNat < 256 := a'.toNat_lt_size
      have hv := base64Digits_inj (by omega) (by omega) h1 h2 (congrArg base64Digit (by omega))
        (congrArg base64Digit (by omega))
      exact congrArg₂ _ (UInt8.toNat.inj (by omega)) rfl
    · omega
    · omega
  | case4 =>
    rintro (_ | ⟨a', _ | ⟨b', _ | ⟨c', rest'⟩⟩⟩) h <;> simp only [base64Chars, reduceCtorEq] at h
    rfl

theorem base64Encode_injective : Function.Injective base64Encode :=
  fun _ _ h => base64Chars_injective (congrArg String.data h)

end Base64

/-- `HASH_SIZE`, the output size of SHA-256. -/
def hashSize : Nat := 32

/-- The body that `inclusion_proof_to_audit_path` and `consistency_proof_to_path` share. -/
def proofBytesToPath (proofBytes : Bytes) : List String :=
  (chunks hashSize proofBytes.length proofBytes).map base64Encode

namespace Serialization

def inclusionProofToAuditPath (proof : InclusionProof) : List String := proofBytesToPath proof.proof

def consistencyProofToPath (proof : ConsistencyProof) : List String := proofBytesToPath proof.proof

end Serialization

section Spec

theorem proofBytesToPath_flatten {ds : List Bytes} (h : ∀ d ∈ ds, d.length = hashSize) :
    proofBytesToPath ds.flatten = ds.map base64Encode := by
  rw [proofBytesToPath, chunks_flatten (by decide) ds _ h le_rfl]

/-- For hashes of `HASH_SIZE` bytes, the API's path of a proof lists the proof's hashes, in order,
each in base64. -/
theorem proofToPath_fromDigests {ds : List Bytes} (h : ∀ d ∈ ds, d.length = hashSize) :
    Serialization.inclusionProofToAuditPath (InclusionProof.fromDigests ds) = ds.map base64Encode ∧
    Serialization.consistencyProofToPath (ConsistencyProof.fromDigests ds) = ds.map base64Encode :=
  ⟨proofBytesToPath_flatten h, proofBytesToPath_flatten h⟩

theorem proofToPath_two_hashes :
    (∀ d ∈ [List.replicate 32 (0 : UInt8), List.replicate 32 255], d.length = hashSize) ∧
    Serialization.inclusionProofToAuditPath
        (InclusionProof.fromDigests [List.replicate 32 0, List.replicate 32 255]) =
      [List.replicate 32 (0 : UInt8), List.replicate 32 255].map base64Encode ∧
    Serialization.consistencyProofToPath
        (ConsistencyProof.fromDigests [List.replicate 32 0, List.replicate 32 255]) =
      [List.replicate 32 (0 : UInt8), List.replicate 32 255].map base64Encode :=
  have h : ∀ d ∈ [List.replicate 32 (0 : UInt8), List.replicate 32 255], d.length = hashSize := by
    simp [hashSize]
  ⟨h, proofToPath_fromDigests h⟩

theorem flatten_chunks {size : Nat} (hs : 0 < size) :
    ∀ fuel (bs : Bytes), bs.length ≤ fuel → (chunks size fuel bs).flatten = bs
  | 0, bs, h => by simp_all [chunks]
  | fuel + 1, bs, h => by
    rw [chunks]
    split
    · simp_all
    · rw [List.flatten_cons, flatten_chunks hs fuel _ (by simp; omega), List.take_append_drop]

theorem proofBytesToPath_injective : Function.Injective proofBytesToPath := fun p q h => by
  rw [← flatten_chunks (show 0 < hashSize by decide) _ p le_rfl,
    ← flatten_chunks (show 0 < hashSize by decide) _ q le_rfl]
  exact congrArg List.flatten (List.map_injective_iff.mpr base64Encode_injective h)

/-- The API's path of a proof determines the proof, whatever its bytes: the serialization loses
nothing. -/
theorem proofToPath_injective :
    Function.Injective Serialization.inclusionProofToAuditPath ∧
    Function.Injective Serialization.consistencyProofToPath :=
  ⟨fun ⟨_⟩ ⟨_⟩ h => congrArg InclusionProof.mk (proofBytesToPath_injective h),
    fun ⟨_⟩ ⟨_⟩ h => congrArg ConsistencyProof.mk (proofBytesToPath_injective h)⟩

end Spec

end CompactLog
