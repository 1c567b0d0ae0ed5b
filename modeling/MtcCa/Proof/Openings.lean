import MtcCa.Lib.MerkleOpening
import MtcCa.Proof.InclusionCorrect

/-! What an accepted inclusion proof says without any tree behind the root: the loop accepts
exactly the openings of the expected root. -/
namespace Mtc

open Merkle (Opens Climbs)

variable {H : Hasher} {S : Set (HashOutput × HashOutput)} {fnn sn i n len : ℕ}
  {acc root leafHash a : HashOutput} {path : List HashOutput}

/-- Skipping the levels on which the last position is promoted changes no opening. -/
theorem skipEven_opens (hpos : 0 < sn) : ∃ n', skipEven sn sn = (n', n') ∧ n' % 2 = 1 ∧
    ∀ a path root, Opens (hashNode H) S (sn + 1) sn a path root ↔
      Opens (hashNode H) S (n' + 1) n' a path root := by
  induction hk : sn using Nat.strong_induction_on generalizing sn with
  | _ k ih =>
    subst hk
    rw [skipEven]
    simp only [Nat.and_one_is_mod, Nat.shiftRight_one]
    split
    · rename_i heven
      obtain ⟨n', hskip, hodd, hopens⟩ := ih (sn / 2) (by omega) (by omega) rfl
      refine ⟨n', hskip, hodd, ?_⟩
      intro a path root
      rw [← hopens, Merkle.opens_level_iff (by omega), show (sn + 1 + 1) / 2 = sn / 2 + 1 by omega]
      constructor
      · rintro ⟨step, rest, b, rfl, hc, h⟩
        cases hc with
        | odd hodd => omega
        | even _ hlt => omega
        | last => exact h
      · exact fun h => ⟨[], path, a, rfl, .last heven.2 rfl, h⟩
    · exact ⟨sn, rfl, by omega, fun _ _ _ => Iff.rfl⟩

/-- A right child takes its sibling from the left. -/
theorem opens_cons_odd_iff {s : HashOutput} (hi : i ≤ n) (hodd : i % 2 = 1)
    (hp : (s, a) ∈ S) : Opens (hashNode H) S (n + 1) i a (s :: path) root ↔
      Opens (hashNode H) S (n / 2 + 1) (i / 2) (hashNode H s a) path root := by
  rw [Merkle.opens_level_iff (by omega), show (n + 1 + 1) / 2 = n / 2 + 1 by omega]
  constructor
  · rintro ⟨step, rest, b, he, hc, h⟩
    cases hc with
    | odd =>
      obtain ⟨rfl, rfl⟩ := List.cons.inj he
      exact h
    | even heven => omega
    | last heven => omega
  · exact fun h => ⟨[s], path, _, rfl, .odd hodd hp, h⟩

/-- A left child with a right neighbour takes it as its sibling. -/
theorem opens_cons_even_iff {s : HashOutput} (hi : i < n) (heven : i % 2 = 0)
    (hp : (a, s) ∈ S) : Opens (hashNode H) S (n + 1) i a (s :: path) root ↔
      Opens (hashNode H) S (n / 2 + 1) (i / 2) (hashNode H a s) path root := by
  rw [Merkle.opens_level_iff (by omega), show (n + 1 + 1) / 2 = n / 2 + 1 by omega]
  constructor
  · rintro ⟨step, rest, b, he, hc, h⟩
    cases hc with
    | odd hodd => omega
    | even =>
      obtain ⟨rfl, rfl⟩ := List.cons.inj he
      exact h
    | last _ hlast => omega
  · exact fun h => ⟨[s], path, _, rfl, .even heven (by omega) hp, h⟩

/-- The length loop counts the siblings of any opening of that size and position. -/
theorem inclusionPathLenLoop_opens {start stop index : ℕ}
    (h : Opens (hashNode H) S n i a path root) (hn : n = stop - start) (hi : i = index - start)
    (hlo : start ≤ index) : inclusionPathLenLoop index start stop len = len + path.length := by
  induction h generalizing start stop len with
  | leaf =>
    rw [inclusionPathLenLoop, if_neg (by omega)]
    rfl
  | left h2 hk _ _ ih =>
    subst hn hi
    rw [inclusionPathLenLoop, if_pos (by omega)]
    simp only [largestPowerOfTwoBelow_eq_split]
    rw [if_pos (by omega), ih (by omega) rfl hlo, List.length_append, List.length_singleton]
    omega
  | right h2 hk _ _ ih =>
    subst hn hi
    rw [inclusionPathLenLoop, if_pos (by omega)]
    simp only [largestPowerOfTwoBelow_eq_split]
    rw [if_neg (by omega), ih (by omega) (by omega) (by omega), List.length_append,
      List.length_singleton]
    omega

theorem inclusionPathLen_opens (h : Opens (hashNode H) S n i a path root) :
    inclusionPathLen i n = path.length := by
  rw [inclusionPathLen, inclusionPathLenLoop_opens h rfl rfl (Nat.zero_le i), Nat.zero_add]

namespace InclusionProof

/-- The loop ends at `root` exactly when its path opens `root` at its position. -/
theorem verifyLoop_eq_ok_iff {e l : ℕ} (hle : fnn ≤ sn)
    (hS : ∀ q ∈ loopPairs H path fnn sn acc, q ∈ S) :
    verifyLoop H e l path fnn sn acc = .ok (0, root) ↔
      Opens (hashNode H) S (sn + 1) fnn acc path root := by
  induction path generalizing fnn sn acc with
  | nil =>
    rw [verifyLoop, Merkle.opens_nil_iff]
    simp only [Except.ok.injEq, Prod.mk.injEq]
    constructor
    · rintro ⟨rfl, rfl⟩
      exact ⟨rfl, by omega, rfl⟩
    · rintro ⟨hsn, -, rfl⟩
      exact ⟨by omega, rfl⟩
  | cons s rest ih =>
    rw [loopPairs] at hS
    rw [verifyLoop]
    by_cases hsn : sn = 0
    · rw [if_pos hsn, hsn, Merkle.opens_one_iff]
      simp
    · rw [if_neg hsn] at hS ⊢
      simp only [Nat.and_one_is_mod, Nat.shiftRight_one] at hS ⊢
      by_cases hodd : fnn % 2 = 1
      · have hskip : skipEven fnn sn = (fnn, sn) := by
          rw [skipEven, if_neg (by simp [Nat.and_one_is_mod, hodd])]
        rw [if_pos (Or.inl hodd), hskip] at hS ⊢
        simp only [List.mem_cons, forall_eq_or_imp] at hS
        rw [opens_cons_odd_iff hle hodd hS.1]
        exact ih (by omega) hS.2
      · by_cases hlast : fnn = sn
        · subst hlast
          obtain ⟨n', hskip, hodd', hopens⟩ := skipEven_opens (H := H) (S := S)
            (Nat.pos_of_ne_zero hsn)
          rw [if_pos (Or.inr rfl), hskip] at hS ⊢
          simp only [List.mem_cons, forall_eq_or_imp] at hS
          rw [hopens, opens_cons_odd_iff (le_refl n') hodd' hS.1]
          exact ih (le_refl _) hS.2
        · rw [if_neg (by tauto)] at hS ⊢
          simp only [List.mem_cons, forall_eq_or_imp] at hS
          rw [opens_cons_even_iff (by omega) (by omega) hS.1]
          exact ih (by omega) hS.2

/-- Verification accepts exactly the openings of the expected root. -/
theorem verify_opens_iff {proof : InclusionProof}
    (hS : ∀ q ∈ proof.verifyPairs H leafHash, q ∈ S) :
    proof.verify H leafHash root = .ok () ↔ Opens (hashNode H) S proof.treeSize.toNat
      proof.leafIndex.toNat leafHash proof.auditPath root := by
  rw [verify_eq_ok_iff]
  constructor
  · rintro ⟨hi, hlen, hloop⟩
    rw [verifyPairs, if_neg (by omega)] at hS
    have h := (verifyLoop_eq_ok_iff (by omega) hS).mp hloop
    rwa [Nat.sub_add_cancel (by omega)] at h
  · intro h
    have hi := h.lt
    have hlen := inclusionPathLen_opens h
    rw [verifyPairs, if_neg (by omega)] at hS
    refine ⟨hi, hlen.symm, (verifyLoop_eq_ok_iff (by omega) hS).mpr ?_⟩
    rwa [Nat.sub_add_cancel (by omega)]

end InclusionProof

end Mtc
