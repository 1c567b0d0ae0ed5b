import MtcCa.Lib.Checked
import MtcCa.Read.PlanTiles

/-! The greedy decomposition of a range is its coarsest partition into aligned blocks of a power
of two, is short, and never leaves the 64-bit words of the source. -/
namespace Mtc

variable {a b c k e s : ℕ} {block : Subtree} {blocks : List Subtree}

inductive SubtreeError where
  | inverted (start stop : ℕ)
  | misaligned (start stop : ℕ)
deriving DecidableEq

/-- A checked block: not empty, of a power of two, and starting at a multiple of its length. -/
def Subtree.tryAligned (start stop : ℕ) : Except SubtreeError Subtree :=
  if start > stop then .error (.inverted start stop)
  else
    let len := stop - start
    if len = 0 ∨ ¬ len.isPowerOfTwo ∨ start % len ≠ 0 then .error (.misaligned start stop)
    else .ok ⟨start, stop⟩

theorem Subtree.tryAligned_two_pow (hdvd : 2 ^ k ∣ a) :
    Subtree.tryAligned a (a + 2 ^ k) = .ok ⟨a, a + 2 ^ k⟩ := by
  have hpos := Nat.two_pow_pos k
  rw [Subtree.tryAligned, if_neg (by omega)]
  simp only [Nat.add_sub_cancel_left]
  rw [if_neg]
  rintro (hzero | hpow | hmod)
  · omega
  · exact hpow ⟨k, rfl⟩
  · exact hmod (Nat.mod_eq_zero_of_dvd hdvd)

/-- Blocks that are not empty, follow one another and lead from `a` to `b`. -/
def Consecutive (a b : ℕ) : List Subtree → Prop
  | [] => a = b
  | block :: blocks => block.start = a ∧ block.start < block.stop ∧ Consecutive block.stop b blocks

theorem Consecutive.le (h : Consecutive a b blocks) : a ≤ b := by
  induction blocks generalizing a with
  | nil => exact le_of_eq h
  | cons block blocks ih =>
    obtain ⟨rfl, hlt, hrest⟩ := h
    exact hlt.le.trans (ih hrest)

theorem Consecutive.append {c : ℕ} {blocks' : List Subtree} (h : Consecutive a b blocks)
    (h' : Consecutive b c blocks') : Consecutive a c (blocks ++ blocks') := by
  induction blocks generalizing a with
  | nil =>
    have hab : a = b := h
    exact hab ▸ h'
  | cons block blocks ih => exact ⟨h.1, h.2.1, ih h.2.2⟩

theorem Consecutive.le_start {block : Subtree} (h : Consecutive a b blocks) (hm : block ∈ blocks) :
    a ≤ block.start := by
  induction blocks generalizing a with
  | nil => cases hm
  | cons first blocks ih =>
    obtain ⟨rfl, hlt, hrest⟩ := h
    rcases List.mem_cons.mp hm with rfl | hm
    · exact le_rfl
    · exact hlt.le.trans (ih hrest hm)

/-- Of two consecutive blocks the earlier one ends before the later one starts. -/
theorem Consecutive.pairwise (h : Consecutive a b blocks) :
    blocks.Pairwise (fun x y => x.stop ≤ y.start) := by
  induction blocks generalizing a with
  | nil => exact List.Pairwise.nil
  | cons block blocks ih =>
    obtain ⟨-, -, hrest⟩ := h
    exact List.pairwise_cons.mpr ⟨fun _ hm => hrest.le_start hm, ih hrest⟩

/-- Consecutive blocks cover what lies between their ends and nothing else. -/
theorem Consecutive.covered (h : Consecutive a b blocks) (i : ℕ) :
    (∃ block ∈ blocks, block.start ≤ i ∧ i < block.stop) ↔ a ≤ i ∧ i < b := by
  induction blocks generalizing a with
  | nil =>
    have hab : a = b := h
    simp only [List.not_mem_nil, false_and, exists_false, false_iff]
    omega
  | cons block blocks ih =>
    obtain ⟨rfl, hlt, hrest⟩ := h
    have hle := hrest.le
    rw [List.exists_mem_cons_iff, ih hrest]
    omega

theorem decomposeRange_consecutive (hab : a ≤ b) (hb : b < 2 ^ 64) :
    Consecutive a b (decomposeRange a b) := by
  induction hm : b - a using Nat.strong_induction_on generalizing a with
  | _ m ih =>
    rcases Nat.lt_or_eq_of_le hab with hlt | rfl
    · obtain ⟨k, hstep, -, hle⟩ := blockStep_spec hlt hb
      have hpos := blockStep_pos a b
      rw [decomposeRange_of_lt hlt]
      have hfit : a + blockStep a b ≤ b := hstep ▸ hle
      exact ⟨rfl, Nat.lt_add_of_pos_right hpos,
        ih (b - (a + blockStep a b)) (by omega) hfit rfl⟩
    · rw [decomposeRange_self]
      exact rfl

/-- The step takes any aligned block that fits. -/
theorem two_pow_le_blockStep (hdvd : 2 ^ k ∣ a) (hfit : a + 2 ^ k ≤ b) (hb : b < 2 ^ 64) :
    2 ^ k ≤ blockStep a b := by
  have hpos := Nat.two_pow_pos k
  have hspan : 2 ^ k ≤ 2 ^ (b - a).log2 :=
    Nat.pow_le_pow_right (by omega) ((Nat.le_log2 (by omega)).mpr (by omega))
  simp only [blockStep, largestPow2Le_eq, Nat.one_shiftLeft]
  split
  · exact Nat.le_min.mpr ⟨by omega, hspan⟩
  · exact Nat.le_min.mpr ⟨Nat.pow_le_pow_right (by omega)
      ((two_pow_dvd_iff_le_trailingZeros (by omega)).mp hdvd), hspan⟩

/-- Every aligned block inside the range lies in one of the blocks. -/
theorem decomposeRange_maximal (hb : b < 2 ^ 64) (hdvd : 2 ^ k ∣ s) (hlo : a ≤ s)
    (hhi : s + 2 ^ k ≤ b) :
    ∃ block ∈ decomposeRange a b, block.start ≤ s ∧ s + 2 ^ k ≤ block.stop := by
  have hk := Nat.two_pow_pos k
  induction hm : b - a using Nat.strong_induction_on generalizing a with
  | _ m ih =>
    have hlt : a < b := by omega
    obtain ⟨j, hstep, hj, hfit⟩ := blockStep_spec hlt hb
    have hpos := blockStep_pos a b
    rw [decomposeRange_of_lt hlt]
    by_cases hin : s < a + blockStep a b
    · refine ⟨_, List.mem_cons_self, hlo, ?_⟩
      rcases Nat.le_total k j with hkj | hjk
      · refine add_le_of_dvd_of_lt hdvd ?_ hin
        rw [hstep]
        exact (pow_dvd_pow 2 hkj).trans (Nat.dvd_add hj (Nat.dvd_refl _))
      · -- a block longer than the step starts at a multiple of the step, so here
        have hsa : s = a := by
          by_contra hne
          have hroom := add_le_of_dvd_of_lt hj ((pow_dvd_pow 2 hjk).trans hdvd) (by omega)
          omega
        subst hsa
        have hle := two_pow_le_blockStep hdvd hhi hb
        simp only
        omega
    · obtain ⟨block, hmem, hblock⟩ := ih _ (by omega) (Nat.le_of_not_lt hin) rfl
      exact ⟨block, List.mem_cons_of_mem _ hmem, hblock⟩

/-- Two neighbours are never the two halves of an aligned block. -/
theorem decomposeRange_unmerged {before after : List Subtree} {x y : Subtree} (hb : b < 2 ^ 64)
    (h : decomposeRange a b = before ++ x :: y :: after) :
    ¬ (y.len = x.len ∧ 2 * x.len ∣ x.start) := by
  induction before generalizing a with
  | nil =>
    rintro ⟨hlen, hdvd⟩
    have hlt : a < b := by
      by_contra hge
      rw [decomposeRange, if_neg hge] at h
      cases h
    obtain ⟨k, hstep, -, hfit⟩ := blockStep_spec hlt hb
    have hpos := Nat.two_pow_pos k
    rw [decomposeRange_of_lt hlt, List.nil_append] at h
    obtain ⟨rfl, hrest⟩ := List.cons.inj h
    have hlt' : a + blockStep a b < b := by
      by_contra hge
      rw [decomposeRange, if_neg hge] at hrest
      cases hrest
    obtain ⟨j, hstep', -, hfit'⟩ := blockStep_spec hlt' hb
    rw [decomposeRange_of_lt hlt'] at hrest
    obtain ⟨rfl, -⟩ := List.cons.inj hrest
    simp only [Subtree.len, Nat.add_sub_cancel_left] at hlen hdvd
    rw [hstep, ← pow_succ'] at hdvd
    have hle := two_pow_le_blockStep hdvd (by rw [pow_succ]; omega) hb
    rw [hstep, pow_succ] at hle
    omega
  | cons block before ih =>
    have hlt : a < b := by
      by_contra hge
      rw [decomposeRange, if_neg hge] at h
      cases h
    rw [decomposeRange_of_lt hlt, List.cons_append] at h
    exact ih (List.cons.inj h).2

/-- From an aligned start every step takes the highest bit of what is left. -/
theorem length_decomposeRange_of_aligned (hdvd : 2 ^ e ∣ a) (hspan : b - a ≤ 2 ^ e)
    (hb : b < 2 ^ 64) : (decomposeRange a b).length ≤ (b - a).size := by
  induction hm : b - a using Nat.strong_induction_on generalizing a e with
  | _ m ih =>
    subst hm
    by_cases hlt : a < b
    · have hal := alignedRange_of_dvd hlt hdvd hspan
      have hlog := Nat.log2_self_le (n := b - a) (by omega)
      have hsize : b - a < 2 ^ ((b - a).log2 + 1) :=
        (Nat.log2_lt (by omega)).mp (Nat.lt_succ_self _)
      have hpos := Nat.two_pow_pos (b - a).log2
      have hrest := ih (b - (a + 2 ^ (b - a).log2)) (by omega) (e := (b - a).log2)
        (Nat.dvd_add hal.head_dvd (Nat.dvd_refl _)) (by rw [pow_succ] at hsize; omega) rfl
      have hshort : (b - (a + 2 ^ (b - a).log2)).size ≤ (b - a).log2 :=
        Nat.size_le.mpr (by rw [pow_succ] at hsize; omega)
      have hbit : (b - a).log2 < (b - a).size := Nat.lt_size.mpr hlog
      rw [decomposeRange_aligned hal hb, List.length_cons]
      omega
    · rw [decomposeRange, if_neg hlt]
      exact Nat.zero_le _

/-- The alignment grows with every step that it limits. -/
theorem two_pow_dvd_add_trailingZeros (ha : 0 < a) :
    2 ^ (trailingZeros a + 1) ∣ a + 2 ^ trailingZeros a := by
  obtain ⟨q, hq⟩ := (two_pow_dvd_iff_le_trailingZeros ha).mpr (le_refl (trailingZeros a))
  have hodd : q % 2 = 1 := by
    by_contra heven
    have hdvd : 2 ^ (trailingZeros a + 1) ∣ a := by
      rw [pow_succ]
      nth_rewrite 2 [hq]
      exact Nat.mul_dvd_mul_left _ (Nat.dvd_of_mod_eq_zero (by omega))
    have hle := (two_pow_dvd_iff_le_trailingZeros ha).mp hdvd
    omega
  rw [pow_succ]
  nth_rewrite 2 [hq]
  rw [← Nat.mul_succ]
  exact Nat.mul_dvd_mul_left _ (Nat.dvd_of_mod_eq_zero (by omega))

/-- A start aligned to `2 ^ e` has used up `e` of the steps that the alignment can limit. -/
theorem length_decomposeRange_le (hdvd : 2 ^ e ∣ a) (hb : b < 2 ^ 64) :
    (decomposeRange a b).length ≤ ((b - a).size - e) + (b - a).size := by
  induction hm : b - a using Nat.strong_induction_on generalizing a e with
  | _ m ih =>
    subst hm
    by_cases hspan : b - a ≤ 2 ^ e
    · have hle := length_decomposeRange_of_aligned hdvd hspan hb
      omega
    · by_cases ha : a = 0
      · have halign : 2 ^ 64 ∣ a := ha ▸ Nat.dvd_zero _
        have hle := length_decomposeRange_of_aligned halign (by omega) hb
        omega
      · have he : e ≤ trailingZeros a := (two_pow_dvd_iff_le_trailingZeros (by omega)).mp hdvd
        by_cases hfit : a + 2 ^ trailingZeros a ≤ b
        · have hpos := Nat.two_pow_pos (trailingZeros a)
          have hrest := ih (b - (a + 2 ^ trailingZeros a)) (by omega)
            (two_pow_dvd_add_trailingZeros (by omega)) rfl
          have hmono : (b - (a + 2 ^ trailingZeros a)).size ≤ (b - a).size :=
            Nat.size_le_size (by omega)
          have hbit : trailingZeros a < (b - a).size := Nat.lt_size.mpr (by omega)
          rw [decomposeRange_of_lt (by omega), blockStep_of_unaligned (by omega) hfit,
            List.length_cons]
          omega
        · have halign : 2 ^ trailingZeros a ∣ a :=
            (two_pow_dvd_iff_le_trailingZeros (by omega)).mpr (le_refl _)
          have hle := length_decomposeRange_of_aligned halign (by omega) hb
          omega

/-- `largest_pow2_le` on words, with its assertion. -/
def largestPow2LeChecked (x : ℕ) : Option ℕ := do
  guard (x ≥ 1)
  let exponent ← Checked.log2 x
  Checked.shiftLeft 64 1 exponent

/-- The largest block that the alignment of `i` permits, on words. -/
def byAlignmentChecked (i : ℕ) : Option ℕ :=
  if i = 0 then some (2 ^ 64 - 1) else Checked.shiftLeft 64 1 (trailingZeros i)

/-- `decompose_range` on words, for at most `rounds` tests of the loop's condition, with the
assertion of `Subtree::new`. -/
def decomposeRangeChecked : ℕ → ℕ → ℕ → Option (List Subtree)
  | 0, _, _ => none
  | rounds + 1, i, stop =>
    if i < stop then do
      let byAlignment ← byAlignmentChecked i
      let span ← Checked.sub stop i
      let bySpan ← largestPow2LeChecked span
      let next ← Checked.add 64 i (min byAlignment bySpan)
      guard (i ≤ next)
      let blocks ← decomposeRangeChecked rounds next stop
      some (⟨i, next⟩ :: blocks)
    else some []

theorem trailingZeros_lt (ha : 0 < a) (hlt : a < 2 ^ 64) : trailingZeros a < 64 := by
  have hle := Nat.le_of_dvd ha ((two_pow_dvd_iff_le_trailingZeros ha).mpr (le_refl _))
  exact (Nat.pow_lt_pow_iff_right (a := 2) (by omega)).mp (by omega)

theorem decomposeRangeChecked_eq {rounds : ℕ} (hb : b < 2 ^ 64)
    (hrounds : (decomposeRange a b).length < rounds) :
    decomposeRangeChecked rounds a b = some (decomposeRange a b) := by
  induction rounds generalizing a with
  | zero => omega
  | succ rounds ih =>
    rw [decomposeRangeChecked]
    by_cases hlt : a < b
    · obtain ⟨k, hstep, -, hfit⟩ := blockStep_spec hlt hb
      rw [decomposeRange_of_lt hlt, List.length_cons] at hrounds
      have halign : byAlignmentChecked a =
          some (if a = 0 then 2 ^ 64 - 1 else 1 <<< trailingZeros a) := by
        unfold byAlignmentChecked
        split
        · rfl
        · rw [Checked.shiftLeft_one (trailingZeros_lt (by omega) (by omega)), Nat.one_shiftLeft]
      have hspan : largestPow2LeChecked (b - a) = some (largestPow2Le (b - a)) := by
        simp only [largestPow2LeChecked, guard, ge_iff_le, if_pos (show 1 ≤ b - a by omega),
          Checked.log2_eq (show b - a ≠ 0 by omega), bind, Option.bind, pure]
        rw [Checked.shiftLeft_one_log2 (by omega) (by omega), largestPow2Le_eq]
      have hadd : Checked.add 64 a (blockStep a b) = some (a + blockStep a b) :=
        Checked.add_eq (by omega)
      rw [if_pos hlt, halign, Checked.sub_eq hlt.le, decomposeRange_of_lt hlt]
      have hrest := ih (a := a + blockStep a b) (by omega)
      rw [blockStep] at hadd hrest ⊢
      simp only [bind, Option.bind, hspan, hadd, guard, if_pos (Nat.le_add_right _ _), pure, hrest]
    · rw [if_neg hlt, decomposeRange, if_neg hlt]

/-- A list of blocks that splits a range exactly, coarsely and briefly. -/
structure AlignedPartition (start stop : ℕ) (blocks : List Subtree) : Prop where
  consecutive : Consecutive start stop blocks
  covered : ∀ i, (∃ block ∈ blocks, block.start ≤ i ∧ i < block.stop) ↔ start ≤ i ∧ i < stop
  aligned : ∀ block ∈ blocks, (∃ k, block.len = 2 ^ k ∧ 2 ^ k ∣ block.start) ∧
    Subtree.tryAligned block.start block.stop = .ok block
  length_le : blocks.length ≤ 2 * (stop - start).size
  unmerged : ∀ before x y after, blocks = before ++ x :: y :: after →
    ¬ (y.len = x.len ∧ 2 * x.len ∣ x.start)
  /-- No partition into aligned blocks has a block that reaches over two of these. -/
  maximal : ∀ k s, 2 ^ k ∣ s → start ≤ s → s + 2 ^ k ≤ stop →
    ∃ block ∈ blocks, block.start ≤ s ∧ s + 2 ^ k ≤ block.stop

/-- The loop ends without an overflow, with the coarsest partition of the range. -/
theorem decomposeRange_partitions (start stop : Index) (h : start ≤ stop) :
    decomposeRangeChecked 129 start.toNat stop.toNat =
        some (decomposeRange start.toNat stop.toNat) ∧
      AlignedPartition start.toNat stop.toNat (decomposeRange start.toNat stop.toNat) := by
  have hle : start.toNat ≤ stop.toNat := h
  have hstop := stop.toNat_lt
  have hchain := decomposeRange_consecutive hle hstop
  have hlen := length_decomposeRange_le (a := start.toNat) (e := 0) (Nat.one_dvd _) hstop
  have hsize : (stop.toNat - start.toNat).size ≤ 64 := Nat.size_le.mpr (by omega)
  refine ⟨decomposeRangeChecked_eq hstop (by omega), hchain, hchain.covered, ?_, by omega, ?_, ?_⟩
  · intro block hblock
    obtain ⟨k, heq, hdvd, -⟩ := decomposeRange_blocks hstop hblock
    refine ⟨⟨k, ?_, hdvd⟩, ?_⟩
    · rw [heq, Subtree.len, Nat.add_sub_cancel_left]
    · rw [heq]
      exact Subtree.tryAligned_two_pow hdvd
  · intro before x y after hsplit
    exact decomposeRange_unmerged hstop hsplit
  · intro k s hdvd hlo hhi
    exact decomposeRange_maximal hstop hdvd hlo hhi

theorem decomposeRange_partitions_last :
    AlignedPartition 1 18446744073709551615 (decomposeRange 1 18446744073709551615) :=
  (decomposeRange_partitions 1 18446744073709551615 (by decide)).2

end Mtc
