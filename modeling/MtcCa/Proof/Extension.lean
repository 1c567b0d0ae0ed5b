import MtcCa.Lib.MerkleExtension
import MtcCa.Proof.ConsistencyCorrect
import MtcCa.Proof.Openings

/-! What an accepted consistency proof says without any tree behind the two roots: the loops
accept exactly the joint climbs, and those exist exactly when the new root extends the old. -/
namespace Mtc

open Merkle (Extends Joint JointClimbs)

variable {H : Hasher} {S : Set (HashOutput × HashOutput)} {node last idx : ℕ}
  {first second old new p : HashOutput} {path rest : List HashOutput}

/-- An odd position takes its left sibling in both trees. -/
theorem joint_cons_odd_iff (hle : node ≤ last) (hodd : node % 2 = 1) (hf : (p, first) ∈ S)
    (hs : (p, second) ∈ S) :
    Joint (hashNode H) S (node + 1) (last + 1) first second (p :: path) old new ↔
      Joint (hashNode H) S (node / 2 + 1) (last / 2 + 1) (hashNode H p first)
        (hashNode H p second) path old new := by
  rw [Merkle.joint_level_iff (by omega) (by omega), show (last + 1 + 1) / 2 = last / 2 + 1 by omega,
    show (node + 1 + 1) / 2 = node / 2 + 1 by omega]
  constructor
  · rintro ⟨step, rest, a', b', he, hc, h⟩
    cases hc with
    | even =>
      obtain ⟨rfl, rfl⟩ := List.cons.inj he
      exact h
    | odd heven => omega
    | last heven => omega
  · exact fun h => ⟨[p], path, _, _, rfl, .even (by omega) hf hs, h⟩

/-- An even position inside the new tree takes its right sibling there. -/
theorem joint_cons_even_iff (hlt : node < last) (heven : node % 2 = 0) (hs : (second, p) ∈ S) :
    Joint (hashNode H) S (node + 1) (last + 1) first second (p :: path) old new ↔
      Joint (hashNode H) S (node / 2 + 1) (last / 2 + 1) first (hashNode H second p) path
        old new := by
  rw [Merkle.joint_level_iff (by omega) (by omega), show (last + 1 + 1) / 2 = last / 2 + 1 by omega,
    show (node + 1 + 1) / 2 = node / 2 + 1 by omega]
  constructor
  · rintro ⟨step, rest, a', b', he, hc, h⟩
    cases hc with
    | even hodd => omega
    | odd =>
      obtain ⟨rfl, rfl⟩ := List.cons.inj he
      exact h
    | last _ hlast => omega
  · exact fun h => ⟨[p], path, _, _, rfl, .odd (by omega) (by omega) hs, h⟩

/-- The last position of both trees is promoted in both. -/
theorem joint_last_iff (heven : node % 2 = 0) :
    Joint (hashNode H) S (node + 1) (node + 1) first second path old new ↔
      Joint (hashNode H) S (node / 2 + 1) (node / 2 + 1) first second path old new := by
  rw [Merkle.joint_level_iff (by omega) (by omega), show (node + 1 + 1) / 2 = node / 2 + 1 by omega]
  constructor
  · rintro ⟨step, rest, a', b', rfl, hc, h⟩
    cases hc with
    | even hodd => omega
    | odd _ hlt => omega
    | last => exact h
  · exact fun h => ⟨[], path, _, _, rfl, .last (by omega) rfl, h⟩

namespace ConsistencyProof

theorem drop_of_getElem? (h : path[idx]? = some p) :
    path.drop idx = p :: path.drop (idx + 1) ∧ idx + 1 ≤ path.length := by
  obtain ⟨hlt, rfl⟩ := List.getElem?_eq_some_iff.mp h
  exact ⟨List.drop_eq_getElem_cons hlt, hlt⟩

theorem drop_of_getElem?_none (h : path[idx]? = none) : path.drop idx = [] :=
  List.drop_eq_nil_of_le (List.getElem?_eq_none_iff.mp h)

/-- The second loop completes the climb from position zero. -/
theorem climbNew_eq_ok_iff {e : ℕ} (hidx : idx ≤ path.length)
    (hS : ∀ q ∈ climbNewPairs H path last idx second, q ∈ S) :
    climbNew H path e last idx second = .ok (path.length, new) ↔
      Joint (hashNode H) S 1 (last + 1) first second (path.drop idx) first new := by
  induction hn : last using Nat.strong_induction_on generalizing last idx second with
  | _ n ih =>
    subst hn
    rw [climbNew]
    rw [climbNewPairs] at hS
    by_cases hpos : last > 0
    · rw [if_pos hpos] at hS ⊢
      cases hp : path[idx]? with
      | none =>
        rw [drop_of_getElem?_none hp]
        simp only [pathAt, hp, bind, Except.bind, reduceCtorEq, false_iff]
        intro h
        have := h.of_nil
        omega
      | some p =>
        obtain ⟨hdrop, hidx'⟩ := drop_of_getElem? hp
        simp only [hp, List.mem_cons, forall_eq_or_imp, Nat.shiftRight_one] at hS
        simp only [pathAt, hp, bind, Except.bind, Nat.shiftRight_one]
        rw [hdrop, ih (last / 2) (by omega) hidx' hS.2 rfl]
        exact (joint_cons_even_iff hpos rfl hS.1).symm
    · have h0 : last = 0 := by omega
      subst h0
      rw [if_neg hpos, Merkle.joint_one_iff, List.drop_eq_nil_iff]
      simp only [Except.ok.injEq, Prod.mk.injEq]
      constructor
      · rintro ⟨rfl, rfl⟩
        exact ⟨trivial, le_refl _, trivial, rfl⟩
      · rintro ⟨-, hend, -, rfl⟩
        exact ⟨by omega, rfl⟩

/-- The two loops accept exactly the joint climbs from where they start. -/
theorem climbBoth_eq_ok_iff {e : ℕ} (hle : node ≤ last) (hidx : idx ≤ path.length)
    (hS : ∀ q ∈ climbPairs H path node last idx first second, q ∈ S) :
    (∃ last' idx' s', climbBoth H path e node last idx first second = .ok (last', idx', old, s') ∧
      climbNew H path e last' idx' s' = .ok (path.length, new)) ↔
      Joint (hashNode H) S (node + 1) (last + 1) first second (path.drop idx) old new := by
  induction hn : node using Nat.strong_induction_on generalizing node last idx first second with
  | _ n ih =>
    subst hn
    rw [climbBoth]
    rw [climbPairs] at hS
    by_cases hpos : node > 0
    · simp only [if_pos hpos, Nat.and_one_is_mod, Nat.shiftRight_one] at hS ⊢
      by_cases hodd : node % 2 = 1
      · rw [if_pos hodd] at hS ⊢
        cases hp : path[idx]? with
        | none =>
          rw [drop_of_getElem?_none hp]
          simp only [pathAt, hp, bind, Except.bind, reduceCtorEq, false_and, exists_false,
            false_iff]
          intro h
          have := h.of_nil
          omega
        | some p =>
          obtain ⟨hdrop, hidx'⟩ := drop_of_getElem? hp
          simp only [hp, List.mem_cons, forall_eq_or_imp] at hS
          simp only [pathAt, hp, bind, Except.bind]
          rw [hdrop, joint_cons_odd_iff hle hodd hS.1 hS.2.1]
          exact ih (node / 2) (by omega) (by omega) hidx' hS.2.2 rfl
      · rw [if_neg hodd] at hS ⊢
        by_cases hlt : node < last
        · rw [if_pos hlt] at hS ⊢
          cases hp : path[idx]? with
          | none =>
            rw [drop_of_getElem?_none hp]
            simp only [pathAt, hp, bind, Except.bind, reduceCtorEq, false_and, exists_false,
              false_iff]
            intro h
            have := h.of_nil
            omega
          | some p =>
            obtain ⟨hdrop, hidx'⟩ := drop_of_getElem? hp
            simp only [hp, List.mem_cons, forall_eq_or_imp] at hS
            simp only [pathAt, hp, bind, Except.bind]
            rw [hdrop, joint_cons_even_iff hlt (by omega) hS.1]
            exact ih (node / 2) (by omega) (by omega) hidx' hS.2 rfl
        · rw [if_neg hlt] at hS ⊢
          obtain rfl : node = last := by omega
          rw [joint_last_iff (by omega)]
          exact ih (node / 2) (by omega) (le_refl _) hidx hS rfl
    · have h0 : node = 0 := by omega
      subst h0
      simp only [if_neg hpos] at hS ⊢
      simp only [Except.ok.injEq, Prod.mk.injEq]
      constructor
      · rintro ⟨last', idx', s', ⟨rfl, rfl, rfl, rfl⟩, hnew⟩
        exact (climbNew_eq_ok_iff hidx hS).mp hnew
      · intro h
        obtain rfl := h.old_eq rfl
        exact ⟨last, idx, second, ⟨rfl, rfl, rfl, rfl⟩, (climbNew_eq_ok_iff hidx hS).mpr h⟩

/-- Skipping the trailing ones of the old position halves both sizes of the extension. -/
theorem skipOdd_extends {i n : ℕ} (hlt : i < n) : ∃ node last, skipOdd i n = (node, last) ∧
    node % 2 = 0 ∧ node < last ∧ ∀ S old new, Extends (hashNode H) S (i + 1) (n + 1) old new ↔
      Extends (hashNode H) S (node + 1) (last + 1) old new := by
  induction hk : i using Nat.strong_induction_on generalizing i n with
  | _ k ih =>
    subst hk
    rw [skipOdd, Nat.and_one_is_mod]
    by_cases hodd : i % 2 = 1
    · rw [if_pos hodd, Nat.shiftRight_one, Nat.shiftRight_one]
      obtain ⟨node, last, hskip, heven, hlt', hext⟩ :=
        ih (i / 2) (by omega) (show i / 2 < n / 2 by omega) rfl
      refine ⟨node, last, hskip, heven, hlt', ?_⟩
      intro S old new
      rw [← hext, Merkle.extends_half_iff (by omega) (by omega) (by omega),
        show (i + 1) / 2 = i / 2 + 1 by omega, show (n + 1 + 1) / 2 = n / 2 + 1 by omega]
    · exact ⟨i, n, by rw [if_neg hodd], by omega, hlt, fun _ _ _ => Iff.rfl⟩

/-- The path of a joint climb after skipping has the length that the sizes call for. -/
theorem consistencyPathLen_joint {m n : ℕ} (hpos : 0 < m) (hlt : m < n)
    (hskip : skipOdd (m - 1) (n - 1) = (node, last))
    (h : Joint (hashNode H) S (node + 1) (last + 1) first second path old new) :
    consistencyPathLen m n = (if node = 0 then 0 else 1) + path.length := by
  have hA : (List.replicate m old).length = m - 1 + 1 := by
    rw [List.length_replicate]
    omega
  have hB : (List.replicate n old).length = n - 1 + 1 := by
    rw [List.length_replicate]
    omega
  obtain ⟨L⟩ := skippedLevel (H := H) hA hB (by omega)
  obtain ⟨rfl, rfl⟩ := Prod.mk.inj (L.skip_eq.symm.trans hskip)
  have hlen := L.length_new
  have hltL := L.lt
  have hself : L.new[L.node']? = some L.new[L.node'] := List.getElem?_eq_getElem (by omega)
  have hsub := L.subproof_eq true
  rw [Merkle.subproof_odd (by have := L.even; omega) (by omega)
    (by rw [Nat.add_sub_cancel, hself]), Nat.add_sub_cancel,
    show m - 1 + 1 = m by omega] at hsub
  have hcount := consistencyPathLen_eq (f := hashNode H) (e := emptyRoot H)
    (l := List.replicate n old) hpos (by rw [List.length_replicate]; exact hlt)
  have hpath := inclusionPathLen_opens h.opens
  rw [Nat.add_sub_cancel, ← L.length_new,
    inclusionPathLen_eq (f := hashNode H) (by omega)] at hpath
  rw [← hsub, List.length_append, hpath, List.length_replicate] at hcount
  rw [hcount]
  by_cases hnode : L.node' = 0
  · simp [hnode]
  · simp [hnode]

/-- Between proper sizes the accepted paths are the joint climbs from the last old position that
is no right child, with its hash in front unless the old root is that hash. -/
theorem verify_joint_iff (proof : ConsistencyProof) (hpos : 0 < proof.oldSize.toNat)
    (hlt : proof.oldSize.toNat < proof.newSize.toNat)
    (hskip : skipOdd (proof.oldSize.toNat - 1) (proof.newSize.toNat - 1) = (node, last))
    (hle : node ≤ last) (hS : ∀ q ∈ proof.verifyPairs H old, q ∈ S) :
    proof.verify H old new = .ok () ↔ ∃ seed rest,
      proof.path = (if node = 0 then [] else [seed]) ++ rest ∧
      Joint (hashNode H) S (node + 1) (last + 1) seed seed rest old new := by
  rw [verify_eq_ok_iff hpos hlt hskip]
  constructor
  · rintro ⟨e, seed, idx, last', idx', s', rfl, hlen, hseed, hboth, hnew⟩
    rw [verifyPairs, if_neg (by omega), hskip] at hS
    unfold seedOf at hseed
    simp only at hS
    by_cases hnode : node > 0
    · rw [if_pos hnode] at hseed hS
      obtain ⟨q, hq, he⟩ := Outcome.bind_eq_ok_iff.mp hseed
      obtain ⟨rfl, rfl⟩ : q = seed ∧ 1 = idx := by simpa using he
      rw [pathAt_eq_ok_iff] at hq
      simp only [hq] at hS
      obtain ⟨hdrop, hidx⟩ := drop_of_getElem? hq
      refine ⟨q, _, ?_, (climbBoth_eq_ok_iff hle hidx hS).mp ⟨last', idx', s', hboth, hnew⟩⟩
      rw [if_neg (by omega), List.singleton_append, ← hdrop, List.drop_zero]
    · rw [if_neg hnode] at hseed hS
      obtain ⟨rfl, rfl⟩ : old = seed ∧ 0 = idx := by simpa using hseed
      refine ⟨old, _, ?_, (climbBoth_eq_ok_iff hle (Nat.zero_le _) hS).mp
        ⟨last', idx', s', hboth, hnew⟩⟩
      rw [if_pos (by omega), List.nil_append, List.drop_zero]
  · rintro ⟨seed, rest, hpath, h⟩
    have hcount := consistencyPathLen_joint hpos hlt hskip h
    have hlen : proof.path.length =
        consistencyPathLen proof.oldSize.toNat proof.newSize.toNat := by
      rw [hcount, hpath, List.length_append]
      split <;> rfl
    rw [verifyPairs, if_neg (by omega), hskip] at hS
    simp only at hS
    by_cases hnode : node = 0
    · obtain rfl := h.old_eq (by omega)
      rw [if_pos hnode, List.nil_append] at hpath
      rw [if_neg (by omega)] at hS
      obtain ⟨last', idx', s', hboth, hnew⟩ :=
        (climbBoth_eq_ok_iff (e := consistencyPathLen proof.oldSize.toNat proof.newSize.toNat)
          hle (Nat.zero_le _) hS).mpr (by rw [List.drop_zero, hpath]; exact h)
      exact ⟨_, old, 0, last', idx', s', rfl, hlen, by rw [seedOf, if_neg (by omega)], hboth, hnew⟩
    · rw [if_neg hnode] at hpath
      have hfirst : proof.path[0]? = some seed := by rw [hpath]; rfl
      simp only [if_pos (Nat.pos_of_ne_zero hnode), hfirst] at hS
      obtain ⟨hdrop, hidx⟩ := drop_of_getElem? hfirst
      obtain ⟨last', idx', s', hboth, hnew⟩ :=
        (climbBoth_eq_ok_iff (e := consistencyPathLen proof.oldSize.toNat proof.newSize.toNat)
          hle hidx hS).mpr (by rw [hpath]; exact h)
      refine ⟨_, seed, 1, last', idx', s', rfl, hlen, ?_, hboth, hnew⟩
      rw [seedOf, if_pos (Nat.pos_of_ne_zero hnode), pathAt_eq_ok_iff.mpr hfirst]
      rfl

theorem verify_zero_iff {proof : ConsistencyProof} (h0 : proof.oldSize.toNat = 0) :
    proof.verify H old new = .ok () ↔ proof.path = [] ∧ old = emptyRoot H ∧
      (proof.newSize.toNat = 0 → new = emptyRoot H) := by
  rw [verify, consistencyPathLen, if_pos (Or.inl h0)]
  simp only [h0, if_true, Outcome.ite_error_eq_ok_iff, ne_eq, not_not, List.length_eq_zero_iff]
  constructor
  · rintro ⟨-, hpath, hold, hnew, -⟩
    exact ⟨hpath, hold, fun hn => not_not.mp fun hne => hnew ⟨hn, hne⟩⟩
  · rintro ⟨hpath, hold, hnew⟩
    exact ⟨by omega, hpath, hold, fun h => h.2 (hnew h.1), trivial⟩

theorem verify_same_iff (proof : ConsistencyProof) (hpos : 0 < proof.oldSize.toNat)
    (heq : proof.oldSize.toNat = proof.newSize.toNat) :
    proof.verify H old new = .ok () ↔ proof.path = [] ∧ old = new := by
  rw [verify, consistencyPathLen, if_pos (Or.inr heq)]
  simp only [Outcome.ite_error_eq_ok_iff, Outcome.ite_else_error_eq_ok_iff, if_neg hpos.ne',
    if_pos heq, ne_eq, not_not, List.length_eq_zero_iff]
  constructor
  · rintro ⟨-, hpath, hroot, -⟩
    exact ⟨hpath, hroot⟩
  · rintro ⟨hpath, hroot⟩
    exact ⟨by omega, hpath, hroot, trivial⟩

theorem le_of_verify {proof : ConsistencyProof} (h : proof.verify H old new = .ok ()) :
    proof.oldSize.toNat ≤ proof.newSize.toNat := by
  rw [verify, Outcome.ite_error_eq_ok_iff] at h
  omega

/-- An accepted proof shows the new root to extend the old one. -/
theorem extends_of_verify {proof : ConsistencyProof} (hpos : 0 < proof.oldSize.toNat)
    (hS : ∀ q ∈ proof.verifyPairs H old, q ∈ S) (h : proof.verify H old new = .ok ()) :
    Extends (hashNode H) S proof.oldSize.toNat proof.newSize.toNat old new := by
  rcases (le_of_verify h).eq_or_lt with heq | hlt
  · obtain ⟨-, rfl⟩ := (verify_same_iff _ hpos heq).mp h
    exact heq ▸ .whole _ _
  · obtain ⟨node, last, hskip, -, hle, hext⟩ := skipOdd_extends (H := H)
      (show proof.oldSize.toNat - 1 < proof.newSize.toNat - 1 by omega)
    obtain ⟨seed, rest, -, hjoint⟩ := (verify_joint_iff _ hpos hlt hskip hle.le hS).mp h
    have h' := (hext S old new).mpr (hjoint.extends rfl)
    rwa [Nat.sub_add_cancel hpos, Nat.sub_add_cancel (by omega)] at h'

/-- Whenever the new root extends the old one, some path is accepted between them. -/
theorem exists_verify_of_extends {m n : TreeSize} (hpos : 0 < m.toNat)
    (h : Extends (hashNode H) S m.toNat n.toNat old new) :
    ∃ path, verify H ⟨m, n, path⟩ old new = .ok () := by
  rcases h.le.eq_or_lt with heq | hlt
  · obtain rfl := h.eq_of_size heq
    exact ⟨[], (verify_same_iff _ hpos heq).mpr ⟨rfl, rfl⟩⟩
  · obtain ⟨node, last, hskip, heven, hle, hext⟩ := skipOdd_extends (H := H)
      (show m.toNat - 1 < n.toNat - 1 by omega)
    have h' := h.mono (Set.subset_univ S)
    rw [← Nat.sub_add_cancel hpos, ← Nat.sub_add_cancel (show 0 < n.toNat by omega), hext] at h'
    obtain ⟨seed, rest, hjoint⟩ := h'.exists_joint (by omega) (by omega)
    exact ⟨_, (verify_joint_iff ⟨m, n, _⟩ hpos hlt hskip hle.le
      (fun _ _ => Set.mem_univ _)).mpr ⟨seed, rest, rfl, hjoint⟩⟩

/-- Accepted proofs compose: where one root leads to a second and the second to a third, some
path is accepted straight from the first to the third, whatever trees stand behind them. -/
theorem accepted_proofs_compose {k m n : TreeSize} {path path' : List HashOutput}
    {old mid new : HashOutput} (hcf : Merkle.CollisionFreeOn (hashNode H) S)
    (hS : ∀ q ∈ verifyPairs H ⟨k, m, path⟩ old, q ∈ S)
    (hS' : ∀ q ∈ verifyPairs H ⟨m, n, path'⟩ mid, q ∈ S)
    (h : verify H ⟨k, m, path⟩ old mid = .ok ()) (h' : verify H ⟨m, n, path'⟩ mid new = .ok ()) :
    ∃ path'', verify H ⟨k, n, path''⟩ old new = .ok () := by
  have hle := le_of_verify h
  by_cases hk : k.toNat = 0
  · obtain ⟨-, hold, hmid⟩ := (verify_zero_iff hk).mp h
    refine ⟨[], (verify_zero_iff hk).mpr ⟨rfl, hold, ?_⟩⟩
    intro hn
    have hm : m.toNat = 0 := Nat.le_zero.mp (hn ▸ le_of_verify h')
    exact ((verify_zero_iff hm).mp h').2.2 hn
  · have hpos : 0 < k.toNat := Nat.pos_of_ne_zero hk
    have hext := extends_of_verify hpos hS h
    have hext' := extends_of_verify (hpos.trans_le hle) hS' h'
    exact exists_verify_of_extends hpos (hext.trans hcf hext')

theorem path_unique {m n : TreeSize} {path path' : List HashOutput}
    (hcf : Merkle.CollisionFreeOn (hashNode H) S)
    (hS : ∀ q ∈ verifyPairs H ⟨m, n, path⟩ old, q ∈ S)
    (hS' : ∀ q ∈ verifyPairs H ⟨m, n, path'⟩ old, q ∈ S)
    (h : verify H ⟨m, n, path⟩ old new = .ok ())
    (h' : verify H ⟨m, n, path'⟩ old new = .ok ()) : path = path' := by
  by_cases hm : m.toNat = 0
  · exact ((verify_zero_iff hm).mp h).1.trans ((verify_zero_iff hm).mp h').1.symm
  · have hpos : 0 < m.toNat := Nat.pos_of_ne_zero hm
    rcases (show m.toNat ≤ n.toNat from le_of_verify h).eq_or_lt with heq | hlt
    · exact ((verify_same_iff ⟨m, n, path⟩ hpos heq).mp h).1.trans
        ((verify_same_iff ⟨m, n, path'⟩ hpos heq).mp h').1.symm
    · obtain ⟨node, last, hskip, -, hle, -⟩ := skipOdd_extends (H := H)
        (show m.toNat - 1 < n.toNat - 1 by omega)
      obtain ⟨seed, rest, hp, hj⟩ :=
        (verify_joint_iff ⟨m, n, path⟩ hpos hlt hskip hle.le hS).mp h
      obtain ⟨seed', rest', hp', hj'⟩ :=
        (verify_joint_iff ⟨m, n, path'⟩ hpos hlt hskip hle.le hS').mp h'
      obtain ⟨rfl, -, rfl⟩ := hj.unique hj' hcf
      exact hp.trans hp'.symm

end ConsistencyProof

/-- The root of the first `n` of four leaf hashes, to evaluate on. -/
def grownRoot (n : ℕ) : HashOutput := mth residueHasher (ConsistencyProof.sampleNew.take n)

theorem accepted_proofs_compose_two_three_four : ∃ path,
    ConsistencyProof.verify residueHasher ⟨2, 4, path⟩ (grownRoot 2) (grownRoot 4) = .ok () := by
  have h : ConsistencyProof.verify residueHasher ⟨2, 3, [⟨List.Vector.replicate 32 3⟩]⟩
      (grownRoot 2) (grownRoot 3) = .ok () := by
    decide +kernel
  have h' : ConsistencyProof.verify residueHasher ConsistencyProof.sampleProof
      (grownRoot 3) (grownRoot 4) = .ok () := by
    decide +kernel
  refine ConsistencyProof.accepted_proofs_compose (Merkle.collisionFreeOn_of_forall_mem
    (ConsistencyProof.verifyPairs residueHasher ⟨2, 3, [⟨List.Vector.replicate 32 3⟩]⟩
        (grownRoot 2) ++
      ConsistencyProof.verifyPairs residueHasher ConsistencyProof.sampleProof (grownRoot 3))
    (by decide +kernel) (fun _ hp => hp)) ?_ ?_ h h'
  · exact fun _ hq => List.mem_append_left _ hq
  · exact fun _ hq => List.mem_append_right _ hq

/-- No accepted proof has a twin: at one size, index and root a second inclusion proof names the
same leaf by the same path, and between one pair of sizes and roots a second consistency proof
has the same path. -/
theorem accepted_proofs_unique (H : Hasher) (S : Set (HashOutput × HashOutput))
    (hcf : Merkle.CollisionFreeOn (hashNode H) S) :
    (∀ (size : TreeSize) (index : Index) (path path' : List HashOutput)
      (leaf leaf' root : HashOutput),
      (∀ q ∈ InclusionProof.verifyPairs H ⟨size, index, path⟩ leaf, q ∈ S) →
      (∀ q ∈ InclusionProof.verifyPairs H ⟨size, index, path'⟩ leaf', q ∈ S) →
      InclusionProof.verify H ⟨size, index, path⟩ leaf root = .ok () →
      InclusionProof.verify H ⟨size, index, path'⟩ leaf' root = .ok () →
      leaf = leaf' ∧ path = path') ∧
    ∀ (m n : TreeSize) (path path' : List HashOutput) (old new : HashOutput),
      (∀ q ∈ ConsistencyProof.verifyPairs H ⟨m, n, path⟩ old, q ∈ S) →
      (∀ q ∈ ConsistencyProof.verifyPairs H ⟨m, n, path'⟩ old, q ∈ S) →
      ConsistencyProof.verify H ⟨m, n, path⟩ old new = .ok () →
      ConsistencyProof.verify H ⟨m, n, path'⟩ old new = .ok () → path = path' := by
  constructor
  · intro size index path path' leaf leaf' root hS hS' h h'
    exact ((InclusionProof.verify_opens_iff hS).mp h).unique
      ((InclusionProof.verify_opens_iff hS').mp h') hcf
  · intro m n path path' old new hS hS' h h'
    exact ConsistencyProof.path_unique hcf hS hS' h h'

/-- The paths written out for the samples are the ones the trees generate. -/
theorem accepted_proofs_unique_samples :
    InclusionProof.samplePath =
        Merkle.siblings (hashNode residueHasher) InclusionProof.sampleLeaves 2 ∧
      ConsistencyProof.sampleProof.path = Merkle.subproof (hashNode residueHasher)
        (emptyRoot residueHasher) ConsistencyProof.sampleNew 3 true := by
  have hcf : Merkle.CollisionFreeOn (hashNode residueHasher)
      {q | q ∈ mthPairs residueHasher ConsistencyProof.sampleNew ++
        mthPairs residueHasher ConsistencyProof.sampleOld} :=
    Merkle.collisionFreeOn_of_forall_mem _ (by decide +kernel) (fun _ hp => hp)
  obtain ⟨hinclusion, hconsistency⟩ := accepted_proofs_unique residueHasher _ hcf
  constructor
  · exact (hinclusion 3 2 _ _ ⟨List.Vector.replicate 32 3⟩ ⟨List.Vector.replicate 32 3⟩
      (mth residueHasher InclusionProof.sampleLeaves) (by decide +kernel) (by decide +kernel)
      (by decide +kernel) (by decide +kernel)).2
  · exact hconsistency 3 4 _ _ (grownRoot 3) (grownRoot 4) (by decide +kernel) (by decide +kernel)
      (by decide +kernel) (by decide +kernel)

end Mtc
