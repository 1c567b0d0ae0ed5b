import MtcCa.Checkpoint.Signer
import MtcCa.Lib.Decimal

/-! The object keys of checkpoints, and when a listing sorts them by tree size
(`crates/checkpoint-signer/src/framing.rs`). -/
namespace CheckpointSigner

open Mtc

variable {a b : TreeSize}

/-- How many digits the key has for the tree size. -/
def sizeDigits (treeSize : TreeSize) : ℕ := max 16 (toString treeSize.toNat).length

/-- The digits of `a` come before those of `b`, also where `b` has more of them. -/
def SortsBefore (a b : TreeSize) : Prop :=
  a.toNat * 10 ^ (sizeDigits b - sizeDigits a) ≤ b.toNat

theorem checkpointObjectKey_toList (n : TreeSize) :
    (checkpointObjectKey n).toList = checkpointObjectPrefix.toList ++
      (Decimal.padded 16 n.toNat ++ '.' :: ['s', 'i', 'g', 'n', 'e', 'd']) := by
  have hdigits : (toString n.toNat).toList = Nat.toDigits 10 n.toNat := by
    rw [Nat.toString_eq_ofList_toDigits, String.toList_ofList]
  rw [checkpointObjectKey, String.toList_append, String.toList_append, String.toList_ofList,
    List.append_assoc, hdigits]
  rfl

theorem sizeDigits_eq (n : TreeSize) : sizeDigits n = (Decimal.padded 16 n.toNat).length := by
  rw [Decimal.length_padded_eq, sizeDigits, ← String.length_toList, Nat.toString_eq_ofList_toDigits,
    String.toList_ofList]

theorem dot_lt_of_isDigit (d : Char) (h : d.isDigit = true) : '.' < d := by
  have hd := (Char.isDigit_iff_toNat.mp h).1
  exact Nat.lt_of_lt_of_le (by decide) hd

/-- Of two sizes the lesser one has the lesser key exactly when it sorts before the other. -/
theorem checkpointObjectKey_lt_iff (h : a < b) :
    checkpointObjectKey a < checkpointObjectKey b ↔ SortsBefore a b := by
  rw [String.lt_iff_toList_lt, checkpointObjectKey_toList, checkpointObjectKey_toList,
    Decimal.append_lt_append_iff rfl,
    Decimal.padded_append_lt_iff dot_lt_of_isDigit (UInt64.lt_iff_toNat_lt.mp h), SortsBefore,
    sizeDigits_eq, sizeDigits_eq]
  simp

theorem checkpointObjectKey_injective (h : checkpointObjectKey a = checkpointObjectKey b) :
    a = b := by
  have hlist := congrArg String.toList h
  rw [checkpointObjectKey_toList, checkpointObjectKey_toList] at hlist
  have hpad := List.append_cancel_right (List.append_cancel_left hlist)
  have hread := Decimal.read_padded 16 a.toNat
  rw [hpad, Decimal.read_padded] at hread
  exact UInt64.toNat_inj.mp (Option.some.inj hread).symm

/-- The keys of two tree sizes differ where the sizes do, and compare as the sizes do. -/
def KeysOrdered (a b : TreeSize) : Prop :=
  (a ≠ b → checkpointObjectKey a ≠ checkpointObjectKey b) ∧
    (checkpointObjectKey a < checkpointObjectKey b ↔ a < b) ∧
    (checkpointObjectKey b < checkpointObjectKey a ↔ b < a)

/-- The sorted listing of the keys has the keys in the order of the tree sizes. -/
def ListingOrdered (sizes : List TreeSize) : Prop :=
  (sizes.map checkpointObjectKey).mergeSort (· ≤ ·) =
    (sizes.mergeSort (· ≤ ·)).map checkpointObjectKey

theorem SortsBefore.of_sizeDigits_le (h : a < b) (hdigits : sizeDigits b ≤ sizeDigits a) :
    SortsBefore a b := by
  rw [SortsBefore, Nat.sub_eq_zero_of_le hdigits, pow_zero, Nat.mul_one]
  exact (UInt64.lt_iff_toNat_lt.mp h).le

/-- The padding is wide enough for every size below `10 ^ 16`. -/
theorem SortsBefore.of_lt (h : a < b) (hb : b.toNat < 10 ^ 16) : SortsBefore a b := by
  apply SortsBefore.of_sizeDigits_le h
  rw [sizeDigits_eq, sizeDigits_eq, Decimal.length_padded (by decide) hb,
    Decimal.length_padded (by decide) ((UInt64.lt_iff_toNat_lt.mp h).trans hb)]

theorem keysOrdered_comm : KeysOrdered a b ↔ KeysOrdered b a := by
  unfold KeysOrdered
  rw [ne_comm, ne_comm (a := checkpointObjectKey a), and_comm (b := _ ↔ b < a)]

theorem keysOrdered_of_lt (h : a < b) : KeysOrdered a b ↔ SortsBefore a b := by
  have hne : checkpointObjectKey a ≠ checkpointObjectKey b := fun hkey =>
    UInt64.ne_of_lt h (checkpointObjectKey_injective hkey)
  rw [← checkpointObjectKey_lt_iff h]
  constructor
  · intro hkeys
    exact hkeys.2.1.mpr h
  · intro hlt
    exact ⟨fun _ => hne, iff_of_true hlt h, iff_of_false hlt.asymm (UInt64.lt_asymm h)⟩

theorem keysOrdered_iff :
    KeysOrdered a b ↔ (a < b → SortsBefore a b) ∧ (b < a → SortsBefore b a) := by
  rcases eq_or_ne a b with rfl | hne
  · exact iff_of_true ⟨fun h => (h rfl).elim, by simp, by simp⟩ (by simp)
  · rcases UInt64.lt_or_lt_of_ne hne with h | h
    · rw [keysOrdered_of_lt h]
      exact ⟨fun hs => ⟨fun _ => hs, fun hlt => (UInt64.lt_asymm h hlt).elim⟩, fun hs => hs.1 h⟩
    · rw [keysOrdered_comm, keysOrdered_of_lt h]
      exact ⟨fun hs => ⟨fun hlt => (UInt64.lt_asymm h hlt).elim, fun _ => hs⟩, fun hs => hs.2 h⟩

/-- In a listing that is in order every lesser size sorts before every greater one. -/
theorem ListingOrdered.sortsBefore {sizes : List TreeSize} (h : ListingOrdered sizes)
    (ha : a ∈ sizes) (hb : b ∈ sizes) (hab : a < b) : SortsBefore a b := by
  have hkeys := List.pairwise_mergeSort' (· ≤ ·) (sizes.map checkpointObjectKey)
  rw [h, List.pairwise_map] at hkeys
  have hsizes := List.pairwise_mergeSort' (· ≤ ·) sizes
  have hpair := hkeys.and hsizes
  -- every two members stand in this order, whichever of them comes first
  have hall : ∀ x ∈ sizes.mergeSort (· ≤ ·), ∀ y ∈ sizes.mergeSort (· ≤ ·),
      (x < y → checkpointObjectKey x ≤ checkpointObjectKey y) ∧
        (y < x → checkpointObjectKey y ≤ checkpointObjectKey x) := by
    have hsymm : Std.Symm (fun x y : TreeSize =>
        (x < y → checkpointObjectKey x ≤ checkpointObjectKey y) ∧
          (y < x → checkpointObjectKey y ≤ checkpointObjectKey x)) := ⟨fun x y hxy => hxy.symm⟩
    apply List.Pairwise.forall_of_forall
    · exact fun x _ => ⟨fun _ => le_rfl, fun _ => le_rfl⟩
    · exact hpair.imp (fun hxy => ⟨fun _ => hxy.1, fun hyx => (UInt64.not_le.mpr hyx hxy.2).elim⟩)
  have hle := (hall a (List.mem_mergeSort.mpr ha) b (List.mem_mergeSort.mpr hb)).1 hab
  exact (checkpointObjectKey_lt_iff hab).mp
    (lt_of_le_of_ne hle (fun hkey => UInt64.ne_of_lt hab (checkpointObjectKey_injective hkey)))

/-- Keys sort by tree size exactly where the lesser size sorts before the greater one, which
the padding ensures for sizes of up to sixteen digits only. -/
theorem checkpointObjectKey_order (a b : TreeSize) (sizes : List TreeSize) :
    (KeysOrdered a b ↔ (a < b → SortsBefore a b) ∧ (b < a → SortsBefore b a)) ∧
    (ListingOrdered sizes ↔ ∀ a ∈ sizes, ∀ b ∈ sizes, a < b → SortsBefore a b) := by
  refine ⟨keysOrdered_iff, ?_⟩
  constructor
  · intro h a ha b hb hab
    exact h.sortsBefore ha hb hab
  · intro h
    refine (List.map_mergeSort ?_).symm
    intro a ha b hb
    have hkeys : KeysOrdered a b := keysOrdered_iff.mpr ⟨h a ha b hb, h b hb a ha⟩
    have hle : a ≤ b ↔ checkpointObjectKey a ≤ checkpointObjectKey b := by
      rw [← UInt64.not_lt, ← not_lt, hkeys.2.2]
    exact decide_eq_decide.mpr hle

/-- The first size of seventeen digits comes before the last one of sixteen. -/
theorem checkpointObjectKey_unordered :
    ¬ ∀ a b : TreeSize, KeysOrdered a b := by
  intro h
  have hlt : (9999999999999999 : TreeSize) < 10000000000000000 := by decide
  have hsorts := (keysOrdered_of_lt hlt).mp (h 9999999999999999 10000000000000000)
  have hdigits : sizeDigits 10000000000000000 - sizeDigits 9999999999999999 = 1 := by decide
  rw [SortsBefore, hdigits] at hsorts
  exact absurd hsorts (by decide)

end CheckpointSigner
