import MtcCa.Lib.Checked
import MtcCa.Proof.ConsistencyCorrect

/-! The guards inside proof verification. Once the path has the length the sizes require, the
loops use it up and stop at the root, and no arithmetic of the verifiers leaves the 64-bit words
of the source. -/
namespace Mtc

open Merkle (siblings split subproof)

/-- `largest_power_of_two_below` on words, with its assertion. -/
def largestPowerOfTwoBelowChecked (n : ℕ) : Option ℕ := do
  guard (n ≥ 2)
  let below ← Checked.sub n 1
  let exponent ← Checked.log2 below
  Checked.shiftLeft 64 1 exponent

/-- The loop of `inclusion_path_len` on words, for at most `rounds` tests of its condition. -/
def inclusionPathLenLoopChecked : ℕ → ℕ → ℕ → ℕ → ℕ → Option ℕ
  | 0, _, _, _, _ => none
  | rounds + 1, index, start, stop, len => do
    let span ← Checked.sub stop start
    if span > 1 then
      let half ← largestPowerOfTwoBelowChecked span
      let k ← Checked.add 64 start half
      let longer ← Checked.add 64 len 1
      if index < k then inclusionPathLenLoopChecked rounds index start k longer
      else inclusionPathLenLoopChecked rounds index k stop longer
    else some len

def inclusionPathLenChecked (index size : ℕ) : Option ℕ :=
  inclusionPathLenLoopChecked 65 index 0 size 0

/-- The recursion of `subproof_len` on words, for at most `depth` nested calls. -/
def subproofLenChecked : ℕ → ℕ → ℕ → Bool → Option ℕ
  | 0, _, _, _ => none
  | depth + 1, m, n, b =>
    if m = n then some (if b then 0 else 1)
    else do
      let k ← largestPowerOfTwoBelowChecked n
      if m ≤ k then
        let len ← subproofLenChecked depth m k b
        Checked.add 64 len 1
      else
        let m ← Checked.sub m k
        let n ← Checked.sub n k
        let len ← subproofLenChecked depth m n false
        Checked.add 64 len 1

def consistencyPathLenChecked (m n : ℕ) : Option ℕ :=
  if m = 0 ∨ m = n then some 0 else subproofLenChecked 65 m n true

theorem largestPowerOfTwoBelowChecked_eq {n : ℕ} (hn : 2 ≤ n) (hlt : n < 2 ^ 64) :
    largestPowerOfTwoBelowChecked n = some (split n) := by
  simp only [largestPowerOfTwoBelowChecked, guard, ge_iff_le, if_pos hn,
    Checked.sub_eq (show 1 ≤ n by omega), Checked.log2_eq (show n - 1 ≠ 0 by omega), bind,
    Option.bind, pure]
  exact Checked.shiftLeft_one_log2 (by omega) (by omega)

/-- Either part of a split range is at most half of a power of two that covers the range. -/
theorem split_le_two_pow {n r : ℕ} (hn : 2 ≤ n) (h : n ≤ 2 ^ (r + 1)) :
    split n ≤ 2 ^ r ∧ n - split n ≤ 2 ^ r := by
  have hle : split n ≤ 2 ^ r := by
    have hlt : (n - 1).log2 < r + 1 := (Nat.log2_lt (by omega)).mpr (by omega)
    exact Nat.pow_le_pow_right (by omega) (by omega)
  have htwo := Merkle.le_two_mul_split hn
  exact ⟨hle, by omega⟩

theorem inclusionPathLenLoopChecked_eq {rounds index start stop len : ℕ} (hle : start ≤ stop)
    (hstop : stop < 2 ^ 64) (hspan : stop - start ≤ 2 ^ rounds) (hlen : len + rounds < 2 ^ 64) :
    inclusionPathLenLoopChecked (rounds + 1) index start stop len =
      some (inclusionPathLenLoop index start stop len) := by
  induction rounds generalizing start stop len with
  | zero =>
    have hshort : ¬ stop - start > 1 := by
      rw [pow_zero] at hspan
      omega
    rw [inclusionPathLenLoopChecked, inclusionPathLenLoop, Checked.sub_eq hle, if_neg hshort]
    simp only [bind, Option.bind, if_neg hshort]
  | succ rounds ih =>
    rw [inclusionPathLenLoopChecked, inclusionPathLenLoop, Checked.sub_eq hle]
    by_cases hlong : stop - start > 1
    · have hsplit := Merkle.split_lt (n := stop - start) (by omega)
      obtain ⟨hleft, hright⟩ := split_le_two_pow (by omega) hspan
      simp only [bind, Option.bind, if_pos hlong,
        largestPowerOfTwoBelowChecked_eq (n := stop - start) (by omega) (by omega),
        Checked.add_eq (show start + split (stop - start) < 2 ^ 64 by omega),
        Checked.add_eq (show len + 1 < 2 ^ 64 by omega), largestPowerOfTwoBelow_eq_split]
      split
      · exact ih (by omega) (by omega) (by omega) (by omega)
      · exact ih (by omega) hstop (by omega) (by omega)
    · simp only [bind, Option.bind, if_neg hlong]

theorem inclusionPathLenChecked_eq {index size : ℕ} (h : size < 2 ^ 64) :
    inclusionPathLenChecked index size = some (inclusionPathLen index size) :=
  inclusionPathLenLoopChecked_eq (Nat.zero_le _) h (by omega) (by omega)

theorem subproofLen_le (depth : ℕ) {m n : ℕ} {b : Bool} (h : n ≤ 2 ^ depth) :
    subproofLen m n b ≤ depth + 1 := by
  induction depth generalizing m n b with
  | zero =>
    rw [pow_zero] at h
    rw [subproofLen, if_pos (Or.inr (by omega))]
    split <;> omega
  | succ depth ih =>
    rw [subproofLen]
    split
    · split <;> omega
    · obtain ⟨hleft, hright⟩ := split_le_two_pow (by omega) h
      simp only [largestPowerOfTwoBelow_eq_split]
      split
      · have := ih (m := m) (b := b) hleft
        omega
      · have := ih (m := m - split n) (b := false) hright
        omega

/-- Between proper sizes the recursion never meets a part it cannot split. -/
theorem subproofLenChecked_eq {depth m n : ℕ} {b : Bool} (hm : 0 < m) (hmn : m ≤ n)
    (hn : n < 2 ^ 64) (h : n ≤ 2 ^ depth) (hdepth : depth ≤ 64) :
    subproofLenChecked (depth + 1) m n b = some (subproofLen m n b) := by
  induction depth generalizing m n b with
  | zero =>
    have heq : m = n := by
      rw [pow_zero] at h
      omega
    rw [subproofLenChecked, subproofLen, if_pos heq, if_pos (Or.inl heq)]
  | succ depth ih =>
    rw [subproofLenChecked, subproofLen]
    by_cases heq : m = n
    · rw [if_pos heq, if_pos (Or.inl heq)]
    · have hsplit := Merkle.split_lt (n := n) (by omega)
      obtain ⟨hleft, hright⟩ := split_le_two_pow (by omega) h
      rw [if_neg heq, if_neg (by omega)]
      simp only [bind, Option.bind, largestPowerOfTwoBelowChecked_eq (n := n) (by omega) hn,
        largestPowerOfTwoBelow_eq_split]
      split
      · have hlen := subproofLen_le depth (m := m) (b := b) hleft
        rw [ih hm (by assumption) (by omega) hleft (by omega)]
        exact Checked.add_eq (by omega)
      · have hlen := subproofLen_le depth (m := m - split n) (b := false) hright
        simp only [Checked.sub_eq (show split n ≤ m by omega),
          Checked.sub_eq (show split n ≤ n by omega)]
        rw [ih (by omega) (by omega) (by omega) hright (by omega)]
        exact Checked.add_eq (by omega)

theorem consistencyPathLenChecked_eq {m n : ℕ} (hmn : m ≤ n) (hn : n < 2 ^ 64) :
    consistencyPathLenChecked m n = some (consistencyPathLen m n) := by
  unfold consistencyPathLenChecked consistencyPathLen
  split
  · rfl
  · exact subproofLenChecked_eq (by omega) hmn hn (by omega) (by omega)

namespace InclusionProof

variable {H : Hasher} {e a fnn sn sn' : ℕ} {path path' : List HashOutput}
  {acc acc' root : HashOutput}

/-- `verify` on words. Its loop only shifts to the right, so nothing but the length formula and
the step from the size to the last position could leave them. -/
def verifyChecked (H : Hasher) (proof : InclusionProof) (leafHash expectedRoot : HashOutput) :
    Option (Except ProofError Unit) :=
  let index := proof.leafIndex.toNat
  let size := proof.treeSize.toNat
  if index ≥ size then some (.error (.indexOutOfRange index size))
  else do
    let expected ← inclusionPathLenChecked index size
    let actual := proof.auditPath.length
    if actual ≠ expected then some (.error (.malformedPath expected actual))
    else
      let last ← Checked.sub size 1
      some (do
        let (sn, acc) ← verifyLoop H expected actual proof.auditPath index last leafHash
        if sn ≠ 0 then .error (.malformedPath expected actual)
        else if acc = expectedRoot then .ok () else .error .rootMismatch)

theorem verifyChecked_eq (proof : InclusionProof) (leafHash expectedRoot : HashOutput) :
    proof.verifyChecked H leafHash expectedRoot = some (proof.verify H leafHash expectedRoot) := by
  have hsize := proof.treeSize.toNat_lt
  unfold verifyChecked verify
  simp only [inclusionPathLenChecked_eq hsize]
  split
  · rfl
  · simp only [bind, Option.bind, Checked.sub_eq (show 1 ≤ proof.treeSize.toNat by omega)]
    split <;> rfl

/-- `verifyLoop` with a record of what it reads: each element with the `sn` of its guard. -/
def verifyLoopTraced (H : Hasher) (expected actual : ℕ) :
    List HashOutput → ℕ → ℕ → HashOutput →
      Except ProofError (List (HashOutput × ℕ) × ℕ × HashOutput)
  | [], _, sn, acc => .ok ([], sn, acc)
  | sibling :: rest, fnn, sn, acc =>
    if sn = 0 then .error (.malformedPath expected actual)
    else if fnn &&& 1 = 1 ∨ fnn = sn then do
      let (fnn, below) := skipEven fnn sn
      let (reads, result) ← verifyLoopTraced H expected actual rest (fnn >>> 1) (below >>> 1)
        (hashNode H sibling acc)
      .ok ((sibling, sn) :: reads, result)
    else do
      let (reads, result) ← verifyLoopTraced H expected actual rest (fnn >>> 1) (sn >>> 1)
        (hashNode H acc sibling)
      .ok ((sibling, sn) :: reads, result)

theorem map_snd_bind_cons {α β ε : Type} (r : α) (x : Except ε (List α × β)) :
    Except.map Prod.snd (x.bind fun p => Except.ok (r :: p.1, p.2)) = x.map Prod.snd := by
  cases x with
  | error err => rfl
  | ok p => rfl

/-- The record changes nothing. -/
theorem verifyLoop_eq_map_traced :
    verifyLoop H e a path fnn sn acc =
      (verifyLoopTraced H e a path fnn sn acc).map Prod.snd := by
  induction path generalizing fnn sn acc with
  | nil => rfl
  | cons sibling rest ih =>
    rw [verifyLoop, verifyLoopTraced]
    split
    · rfl
    · split
      · exact ih.trans (map_snd_bind_cons _ _).symm
      · exact ih.trans (map_snd_bind_cons _ _).symm

/-- A loop that returns has read the whole path, in order, and met `sn = 0` at no element. -/
theorem verifyLoopTraced_reads {reads : List (HashOutput × ℕ)} {result : ℕ × HashOutput}
    (h : verifyLoopTraced H e a path fnn sn acc = .ok (reads, result)) :
    reads.map Prod.fst = path ∧ ∀ read ∈ reads, 0 < read.2 := by
  induction path generalizing fnn sn acc reads result with
  | nil =>
    cases h
    exact ⟨rfl, fun read hread => absurd hread List.not_mem_nil⟩
  | cons sibling rest ih =>
    rw [verifyLoopTraced] at h
    obtain ⟨hsn, h⟩ := Outcome.ite_error_eq_ok_iff.mp h
    split at h
    all_goals
      obtain ⟨⟨later, result'⟩, hlater, heq⟩ := Outcome.bind_eq_ok_iff.mp h
      obtain ⟨hpath, hpos⟩ := ih hlater
      cases heq
      refine ⟨by rw [List.map_cons, hpath], ?_⟩
      intro read hread
      rcases List.mem_cons.mp hread with rfl | hread
      · exact Nat.pos_of_ne_zero hsn
      · exact hpos read hread

/-- What a run of the loop does to the positions depends on the length of the path alone. -/
theorem verifyLoop_of_length (hlen : path'.length = path.length)
    (h : verifyLoop H e a path fnn sn acc = .ok (sn', root)) :
    ∃ root', verifyLoop H e a path' fnn sn acc' = .ok (sn', root') := by
  induction path generalizing path' fnn sn acc acc' with
  | nil =>
    obtain rfl : path' = [] := List.length_eq_zero_iff.mp hlen
    obtain ⟨rfl, -⟩ : sn = sn' ∧ acc = root := by simpa [verifyLoop] using h
    exact ⟨acc', rfl⟩
  | cons sibling rest ih =>
    obtain ⟨sibling', rest', rfl⟩ := List.exists_cons_of_length_eq_add_one hlen
    rw [verifyLoop] at h ⊢
    obtain ⟨hsn, h⟩ := Outcome.ite_error_eq_ok_iff.mp h
    rw [if_neg hsn]
    split at h
    · rw [if_pos (by assumption)]
      exact ih (Nat.succ.inj hlen) h
    · rw [if_neg (by assumption)]
      exact ih (Nat.succ.inj hlen) h

/-- A path of the right length is used up, and ends at the root. -/
theorem verifyLoop_of_pathLen {index size : ℕ} (hi : index < size)
    (hlen : path.length = inclusionPathLen index size) (acc : HashOutput) :
    ∃ root, verifyLoop H e a path index (size - 1) acc = .ok (0, root) := by
  have hleaves : (List.replicate size acc).length = size := List.length_replicate
  have hsiblings := inclusionPathLen_eq (f := hashNode H) (l := List.replicate size acc)
    (i := index) (by omega)
  rw [hleaves] at hsiblings
  exact verifyLoop_of_length (hlen.trans hsiblings)
    (verifyLoop_siblings (by omega) (by omega) (List.getElem?_replicate_of_lt hi))

/-- A path of the right length is read from end to end before `sn` is zero. -/
theorem verifyLoopTraced_of_pathLen {index size : ℕ} (hi : index < size)
    (hlen : path.length = inclusionPathLen index size) (acc : HashOutput) :
    ∃ reads root,
      verifyLoopTraced H e a path index (size - 1) acc = .ok (reads, 0, root) ∧
      reads.map Prod.fst = path ∧ ∀ read ∈ reads, 0 < read.2 := by
  obtain ⟨root, hroot⟩ := verifyLoop_of_pathLen (H := H) (e := e) (a := a) hi hlen acc
  rw [verifyLoop_eq_map_traced] at hroot
  cases htraced : verifyLoopTraced H e a path index (size - 1) acc with
  | error err =>
    rw [htraced] at hroot
    cases hroot
  | ok result =>
    obtain ⟨reads, sn, acc'⟩ := result
    rw [htraced] at hroot
    cases hroot
    exact ⟨reads, root, rfl, verifyLoopTraced_reads htraced⟩

end InclusionProof

namespace ConsistencyProof

variable {H : Hasher} {e node last last' idx idx' : ℕ} {path path' : List HashOutput}
  {first first' second second' : HashOutput}

/-- The loop `while node > 0` on words. -/
def climbBothChecked (H : Hasher) (path : List HashOutput) (expected node last idx : ℕ)
    (first second : HashOutput) :
    ExceptT ProofError Option (ℕ × ℕ × HashOutput × HashOutput) :=
  if node > 0 then
    if node &&& 1 = 1 then do
      let p ← pathAt path idx expected
      let next ← Checked.add 64 idx 1
      climbBothChecked H path expected (node >>> 1) (last >>> 1) next (hashNode H p first)
        (hashNode H p second)
    else if node < last then do
      let p ← pathAt path idx expected
      let next ← Checked.add 64 idx 1
      climbBothChecked H path expected (node >>> 1) (last >>> 1) next first (hashNode H second p)
    else climbBothChecked H path expected (node >>> 1) (last >>> 1) idx first second
  else return (last, idx, first, second)
termination_by node
decreasing_by
  all_goals
    rw [Nat.shiftRight_one]
    omega

/-- The loop `while last > 0` on words. -/
def climbNewChecked (H : Hasher) (path : List HashOutput) (expected last idx : ℕ)
    (second : HashOutput) : ExceptT ProofError Option (ℕ × HashOutput) :=
  if last > 0 then do
    let p ← pathAt path idx expected
    let next ← Checked.add 64 idx 1
    climbNewChecked H path expected (last >>> 1) next (hashNode H second p)
  else return (idx, second)
termination_by last
decreasing_by
  rw [Nat.shiftRight_one]
  omega

/-- `verify` on words. -/
def verifyChecked (H : Hasher) (proof : ConsistencyProof) (oldRoot newRoot : HashOutput) :
    Option (Except ProofError Unit) :=
  let m := proof.oldSize.toNat
  let n := proof.newSize.toNat
  if m > n then some (.error (.nonMonotonicSizes m n))
  else do
    let expected ← consistencyPathLenChecked m n
    if proof.path.length ≠ expected then some (.error (.malformedPath expected proof.path.length))
    else if m = 0 then
      if oldRoot ≠ emptyRoot H then some (.error .rootMismatch)
      else if n = 0 ∧ newRoot ≠ emptyRoot H then some (.error .rootMismatch)
      else some (.ok ())
    else if m = n then
      some (if oldRoot = newRoot then .ok () else .error .rootMismatch)
    else
      let node ← Checked.sub m 1
      let last ← Checked.sub n 1
      let (node, last) := skipOdd node last
      ExceptT.run (do
        let (seed, idx) ← seedOf proof.path expected node oldRoot
        let (last, idx, first, second) ← climbBothChecked H proof.path expected node last idx seed
          seed
        let (idx, second) ← climbNewChecked H proof.path expected last idx second
        if idx ≠ proof.path.length then throw (.malformedPath idx proof.path.length)
        else if first = oldRoot ∧ second = newRoot then return () else throw .rootMismatch)

/-- An index within the path has a successor that is a word. -/
theorem add_one_of_pathAt {p : HashOutput} (hpath : path.length < 2 ^ 64)
    (h : pathAt path idx e = .ok p) : Checked.add 64 idx 1 = some (idx + 1) := by
  obtain ⟨hidx, -⟩ := List.getElem?_eq_some_iff.mp (pathAt_eq_ok_iff.mp h)
  exact Checked.add_eq (by omega)

theorem run_bind {α β ε : Type} {x : Except ε α} {f : α → ExceptT ε Option β}
    {g : α → Except ε β} (h : ∀ a, (f a).run = some (g a)) :
    ((ExceptT.mk (some x)).bind f).run = some (x.bind g) := by
  cases x with
  | error err => rfl
  | ok a => exact h a

theorem climbNewChecked_eq (hpath : path.length < 2 ^ 64) :
    climbNewChecked H path e last idx second =
      ExceptT.mk (some (climbNew H path e last idx second)) := by
  induction hn : last using Nat.strong_induction_on generalizing last idx second with
  | _ n ih =>
    subst hn
    rw [climbNewChecked, climbNew]
    by_cases hpos : last > 0
    · simp only [if_pos hpos]
      cases hat : pathAt path idx e with
      | error err => rfl
      | ok p =>
        rw [add_one_of_pathAt hpath hat]
        exact ih (last >>> 1) (by rw [Nat.shiftRight_one]; omega) rfl
    · simp only [if_neg hpos]
      rfl

theorem climbBothChecked_eq (hpath : path.length < 2 ^ 64) :
    climbBothChecked H path e node last idx first second =
      ExceptT.mk (some (climbBoth H path e node last idx first second)) := by
  induction hn : node using Nat.strong_induction_on generalizing node last idx first second with
  | _ n ih =>
    subst hn
    have hhalf : node > 0 → node >>> 1 < node := by
      intro hpos
      rw [Nat.shiftRight_one]
      omega
    rw [climbBothChecked, climbBoth]
    by_cases hpos : node > 0
    · simp only [if_pos hpos]
      by_cases hodd : node &&& 1 = 1
      · simp only [if_pos hodd]
        cases hat : pathAt path idx e with
        | error err => rfl
        | ok p =>
          rw [add_one_of_pathAt hpath hat]
          exact ih (node >>> 1) (hhalf hpos) rfl
      · simp only [if_neg hodd]
        by_cases hlt : node < last
        · simp only [if_pos hlt]
          cases hat : pathAt path idx e with
          | error err => rfl
          | ok p =>
            rw [add_one_of_pathAt hpath hat]
            exact ih (node >>> 1) (hhalf hpos) rfl
        · simp only [if_neg hlt]
          exact ih (node >>> 1) (hhalf hpos) rfl
    · simp only [if_neg hpos]
      rfl

theorem consistencyPathLen_le {m n : ℕ} (hn : n < 2 ^ 64) : consistencyPathLen m n ≤ 65 := by
  unfold consistencyPathLen
  split
  · omega
  · exact subproofLen_le 64 (by omega)

theorem verifyChecked_eq (proof : ConsistencyProof) (oldRoot newRoot : HashOutput) :
    proof.verifyChecked H oldRoot newRoot = some (proof.verify H oldRoot newRoot) := by
  have hn := proof.newSize.toNat_lt
  unfold verifyChecked verify
  by_cases hmn : proof.oldSize.toNat > proof.newSize.toNat
  · simp only [if_pos hmn]
  · simp only [if_neg hmn, consistencyPathLenChecked_eq (Nat.le_of_not_gt hmn) hn, bind,
      Option.bind]
    split
    · rfl
    · next hlen =>
      have hle := consistencyPathLen_le (m := proof.oldSize.toNat) hn
      have hpath : proof.path.length < 2 ^ 64 := by omega
      split
      · split
        · rfl
        · split <;> rfl
      · split
        · rfl
        · simp only [Checked.sub_eq (show 1 ≤ proof.oldSize.toNat by omega),
            Checked.sub_eq (show 1 ≤ proof.newSize.toNat by omega), climbBothChecked_eq hpath,
            climbNewChecked_eq hpath]
          refine run_bind (fun seed => run_bind (fun both => run_bind (fun new => ?_)))
          split
          · rfl
          · split <;> rfl

/-- The loops of `verify`: how many elements of the path they read, and both roots. -/
def climb (H : Hasher) (proof : ConsistencyProof) (expected : ℕ) (oldRoot : HashOutput) :
    Except ProofError (ℕ × HashOutput × HashOutput) := do
  let (node, last) := skipOdd (proof.oldSize.toNat - 1) (proof.newSize.toNat - 1)
  let (seed, idx) ← seedOf proof.path expected node oldRoot
  let (last, idx, first, second) ← climbBoth H proof.path expected node last idx seed seed
  let (idx, second) ← climbNew H proof.path expected last idx second
  .ok (idx, first, second)

theorem verify_eq_climb {proof : ConsistencyProof} {oldRoot newRoot : HashOutput}
    (hpos : 0 < proof.oldSize.toNat) (hlt : proof.oldSize.toNat < proof.newSize.toNat)
    (hlen : proof.path.length = consistencyPathLen proof.oldSize.toNat proof.newSize.toNat) :
    verify H proof oldRoot newRoot = (do
      let (idx, first, second) ← climb H proof proof.path.length oldRoot
      if idx ≠ proof.path.length then .error (.malformedPath idx proof.path.length)
      else if first = oldRoot ∧ second = newRoot then .ok () else .error .rootMismatch) := by
  simp only [verify, climb, if_neg (Nat.not_lt.mpr hlt.le), ← hlen, ne_eq, not_true_eq_false,
    if_false, if_neg hpos.ne', if_neg hlt.ne, bind_assoc]
  rfl

theorem pathAt_of_length (hlen : path'.length = path.length) {p : HashOutput}
    (h : pathAt path idx e = .ok p) : ∃ p', pathAt path' idx e = .ok p' := by
  obtain ⟨hidx, -⟩ := List.getElem?_eq_some_iff.mp (pathAt_eq_ok_iff.mp h)
  exact ⟨_, pathAt_eq_ok_iff.mpr (List.getElem?_eq_getElem (by omega))⟩

theorem seedOf_of_length (hlen : path'.length = path.length) {oldRoot seed : HashOutput}
    (h : seedOf path e node oldRoot = .ok (seed, idx)) (oldRoot' : HashOutput) :
    ∃ seed', seedOf path' e node oldRoot' = .ok (seed', idx) := by
  unfold seedOf at h ⊢
  by_cases hpos : node > 0
  · rw [if_pos hpos] at h ⊢
    obtain ⟨p, hp, heq⟩ := Outcome.bind_eq_ok_iff.mp h
    obtain ⟨p', hp'⟩ := pathAt_of_length hlen hp
    cases heq
    exact ⟨p', Outcome.bind_eq_ok_iff.mpr ⟨p', hp', rfl⟩⟩
  · rw [if_neg hpos] at h ⊢
    cases h
    exact ⟨oldRoot', rfl⟩

theorem climbNew_of_length (hlen : path'.length = path.length)
    (h : climbNew H path e last idx first = .ok (idx', second)) (first' : HashOutput) :
    ∃ root, climbNew H path' e last idx first' = .ok (idx', root) := by
  induction hn : last using Nat.strong_induction_on generalizing last idx first first' with
  | _ n ih =>
    subst hn
    rw [climbNew] at h ⊢
    by_cases hpos : last > 0
    · rw [if_pos hpos] at h ⊢
      obtain ⟨p, hp, hrest⟩ := Outcome.bind_eq_ok_iff.mp h
      obtain ⟨p', hp'⟩ := pathAt_of_length hlen hp
      obtain ⟨root, hroot⟩ := ih (last >>> 1) (by rw [Nat.shiftRight_one]; omega) hrest _ rfl
      exact ⟨root, Outcome.bind_eq_ok_iff.mpr ⟨p', hp', hroot⟩⟩
    · rw [if_neg hpos] at h ⊢
      cases h
      exact ⟨first', rfl⟩

/-- Which elements the loop reads depends on the length of the path alone. -/
theorem climbBoth_of_length (hlen : path'.length = path.length) {r : HashOutput × HashOutput}
    (h : climbBoth H path e node last idx first second = .ok (last', idx', r))
    (first' second' : HashOutput) :
    ∃ r', climbBoth H path' e node last idx first' second' = .ok (last', idx', r') := by
  induction hn : node using Nat.strong_induction_on
    generalizing node last idx first second first' second' with
  | _ n ih =>
    subst hn
    have hhalf : node > 0 → node >>> 1 < node := by
      intro hpos
      rw [Nat.shiftRight_one]
      omega
    rw [climbBoth] at h ⊢
    by_cases hpos : node > 0
    · rw [if_pos hpos] at h ⊢
      by_cases hodd : node &&& 1 = 1
      · rw [if_pos hodd] at h ⊢
        obtain ⟨p, hp, hrest⟩ := Outcome.bind_eq_ok_iff.mp h
        obtain ⟨p', hp'⟩ := pathAt_of_length hlen hp
        obtain ⟨r', hr'⟩ := ih (node >>> 1) (hhalf hpos) hrest _ _ rfl
        exact ⟨r', Outcome.bind_eq_ok_iff.mpr ⟨p', hp', hr'⟩⟩
      · rw [if_neg hodd] at h ⊢
        by_cases hlt : node < last
        · rw [if_pos hlt] at h ⊢
          obtain ⟨p, hp, hrest⟩ := Outcome.bind_eq_ok_iff.mp h
          obtain ⟨p', hp'⟩ := pathAt_of_length hlen hp
          obtain ⟨r', hr'⟩ := ih (node >>> 1) (hhalf hpos) hrest _ _ rfl
          exact ⟨r', Outcome.bind_eq_ok_iff.mpr ⟨p', hp', hr'⟩⟩
        · rw [if_neg hlt] at h ⊢
          exact ih (node >>> 1) (hhalf hpos) h _ _ rfl
    · rw [if_neg hpos] at h ⊢
      cases h
      exact ⟨_, rfl⟩

/-- Some path of the right length is accepted: the one of a tree of equal leaves. -/
theorem exists_accepted {proof : ConsistencyProof} (hpos : 0 < proof.oldSize.toNat)
    (hlt : proof.oldSize.toNat < proof.newSize.toNat)
    (hlen : proof.path.length = consistencyPathLen proof.oldSize.toNat proof.newSize.toNat) :
    ∃ honest : ConsistencyProof, honest.oldSize = proof.oldSize ∧
      honest.newSize = proof.newSize ∧ honest.path.length = proof.path.length ∧
      ∃ a b, honest.verify H a b = .ok () := by
  have hleaves : (List.replicate proof.newSize.toNat (emptyRoot H)).length = proof.newSize.toNat :=
    List.length_replicate
  have hpath := consistencyPathLen_eq (f := hashNode H) (e := emptyRoot H) hpos
    (lt_of_lt_of_eq hlt hleaves.symm)
  rw [hleaves, ← hlen] at hpath
  exact ⟨⟨proof.oldSize, proof.newSize, subproof (hashNode H) (emptyRoot H)
    (List.replicate proof.newSize.toNat (emptyRoot H)) proof.oldSize.toNat true⟩, rfl, rfl,
    hpath.symm, _, _, verify_subproof hpos hlt hleaves⟩

/-- A path of the right length is read to its end and no further. -/
theorem climb_of_pathLen (proof : ConsistencyProof) (hpos : 0 < proof.oldSize.toNat)
    (hlt : proof.oldSize.toNat < proof.newSize.toNat)
    (hlen : proof.path.length = consistencyPathLen proof.oldSize.toNat proof.newSize.toNat)
    (oldRoot : HashOutput) :
    ∃ roots, climb H proof proof.path.length oldRoot = .ok (proof.path.length, roots) := by
  obtain ⟨honest, hold, hnewSize, hpath, a, b, hverify⟩ := exists_accepted (H := H) hpos hlt hlen
  rw [← hold] at hpos
  rw [← hold, ← hnewSize] at hlt
  obtain ⟨e, seed, idx, last', idx', s', -, rfl, hseed, hboth, hnew⟩ :=
    (verify_eq_ok_iff hpos hlt (Prod.mk.eta (p := skipOdd _ _)).symm).mp hverify
  rw [hold, hnewSize] at hseed hboth
  obtain ⟨seed', hseed'⟩ := seedOf_of_length hpath.symm hseed oldRoot
  obtain ⟨r, hboth'⟩ := climbBoth_of_length hpath.symm hboth seed' seed'
  obtain ⟨root, hnew'⟩ := climbNew_of_length hpath.symm hnew r.2
  rw [hpath] at hseed' hboth' hnew'
  refine ⟨(r.1, root), ?_⟩
  rw [climb]
  simp only [Outcome.bind_eq_ok_iff]
  exact ⟨_, hseed', _, hboth', _, hnew', rfl⟩

/-- Sizes in order and a path of the length they require. -/
def Sized (proof : ConsistencyProof) : Prop :=
  proof.oldSize ≤ proof.newSize ∧
    proof.path.length = consistencyPathLen proof.oldSize.toNat proof.newSize.toNat

theorem Sized.path_eq_nil {proof : ConsistencyProof} (h : proof.Sized)
    (hsame : proof.oldSize.toNat = 0 ∨ proof.oldSize.toNat = proof.newSize.toNat) :
    proof.path = [] := by
  have hlen := h.2
  rw [consistencyPathLen, if_pos hsame] at hlen
  exact List.length_eq_zero_iff.mp hlen

/-- Past its size checks a proof can only fail to reproduce the roots. -/
theorem Sized.verify_cases {proof : ConsistencyProof} (h : proof.Sized)
    (oldRoot newRoot : HashOutput) :
    proof.verify H oldRoot newRoot = .ok () ∨
      proof.verify H oldRoot newRoot = .error .rootMismatch := by
  obtain ⟨hle, hlen⟩ := h
  have hmn : proof.oldSize.toNat ≤ proof.newSize.toNat := hle
  by_cases hproper : 0 < proof.oldSize.toNat ∧ proof.oldSize.toNat < proof.newSize.toNat
  · obtain ⟨hpos, hlt⟩ := hproper
    obtain ⟨roots, hclimb⟩ := climb_of_pathLen (H := H) proof hpos hlt hlen oldRoot
    rw [verify_eq_climb hpos hlt hlen, hclimb]
    simp only [bind, Except.bind, ne_eq, not_true_eq_false, if_false]
    split
    · exact Or.inl rfl
    · exact Or.inr rfl
  · simp only [verify, if_neg (Nat.not_lt.mpr hmn), hlen, ne_eq, not_true_eq_false, if_false]
    by_cases hzero : proof.oldSize.toNat = 0
    · rw [if_pos hzero]
      split
      · exact Or.inr rfl
      · split
        · exact Or.inr rfl
        · exact Or.inl rfl
    · rw [if_neg hzero, if_pos (by omega)]
      split
      · exact Or.inl rfl
      · exact Or.inr rfl

end ConsistencyProof

/-- An index within the tree and a path of the length it requires. -/
def InclusionProof.Sized (proof : InclusionProof) : Prop :=
  proof.leafIndex < proof.treeSize ∧
    proof.auditPath.length = inclusionPathLen proof.leafIndex.toNat proof.treeSize.toNat

/-- Past its size checks a proof can only fail to reproduce the root. -/
theorem InclusionProof.Sized.verify_cases {proof : InclusionProof} (h : proof.Sized)
    {H : Hasher} (leafHash expectedRoot : HashOutput) :
    proof.verify H leafHash expectedRoot = .ok () ∨
      proof.verify H leafHash expectedRoot = .error .rootMismatch := by
  obtain ⟨hlt, hlen⟩ := h
  have hindex : proof.leafIndex.toNat < proof.treeSize.toNat := hlt
  obtain ⟨root, hroot⟩ := verifyLoop_of_pathLen (H := H)
    (e := inclusionPathLen proof.leafIndex.toNat proof.treeSize.toNat)
    (a := inclusionPathLen proof.leafIndex.toNat proof.treeSize.toNat) hindex hlen leafHash
  simp only [verify, ge_iff_le, if_neg (Nat.not_le.mpr hindex), hlen, ne_eq, not_true_eq_false,
    if_false, hroot, bind, Except.bind]
  split
  · exact Or.inl rfl
  · exact Or.inr rfl

/-- For every 64-bit size, a path of the required length takes the loops exactly to the root: the
inclusion loop reads every element, in order, each with `sn` above zero, and ends with `sn` zero;
the consistency loops read as many elements as there are. Both verifiers compute on 64-bit words
without an overflow or an underflow. -/
theorem verification_guards_hold (H : Hasher) :
    (∀ proof : InclusionProof, proof.Sized →
      (∀ expected actual leafHash, ∃ reads root,
        InclusionProof.verifyLoopTraced H expected actual proof.auditPath proof.leafIndex.toNat
          (proof.treeSize.toNat - 1) leafHash = .ok (reads, 0, root) ∧
        InclusionProof.verifyLoop H expected actual proof.auditPath proof.leafIndex.toNat
          (proof.treeSize.toNat - 1) leafHash = .ok (0, root) ∧
        reads.map Prod.fst = proof.auditPath ∧ ∀ read ∈ reads, 0 < read.2) ∧
      ∀ leafHash expectedRoot, proof.verify H leafHash expectedRoot = .ok () ∨
        proof.verify H leafHash expectedRoot = .error .rootMismatch) ∧
    (∀ expected actual path fnn sn acc,
      InclusionProof.verifyLoop H expected actual path fnn sn acc =
        (InclusionProof.verifyLoopTraced H expected actual path fnn sn acc).map Prod.snd) ∧
    (∀ proof : ConsistencyProof, proof.Sized →
      (0 < proof.oldSize.toNat → proof.oldSize.toNat < proof.newSize.toNat → ∀ oldRoot, ∃ roots,
        proof.climb H proof.path.length oldRoot = .ok (proof.path.length, roots)) ∧
      (proof.oldSize.toNat = 0 ∨ proof.oldSize.toNat = proof.newSize.toNat → proof.path = []) ∧
      ∀ oldRoot newRoot, proof.verify H oldRoot newRoot = .ok () ∨
        proof.verify H oldRoot newRoot = .error .rootMismatch) ∧
    (∀ (proof : InclusionProof) (leafHash expectedRoot : HashOutput),
      proof.verifyChecked H leafHash expectedRoot =
        some (proof.verify H leafHash expectedRoot)) ∧
    ∀ (proof : ConsistencyProof) (oldRoot newRoot : HashOutput),
      proof.verifyChecked H oldRoot newRoot = some (proof.verify H oldRoot newRoot) := by
  refine ⟨?_, fun _ _ _ _ _ _ => InclusionProof.verifyLoop_eq_map_traced, ?_,
    InclusionProof.verifyChecked_eq, ConsistencyProof.verifyChecked_eq⟩
  · intro proof hsized
    refine ⟨fun expected actual leafHash => ?_, hsized.verify_cases⟩
    have hindex : proof.leafIndex.toNat < proof.treeSize.toNat := hsized.1
    obtain ⟨reads, root, htraced, hreads, hpos⟩ :=
      InclusionProof.verifyLoopTraced_of_pathLen (H := H) (e := expected) (a := actual) hindex
        hsized.2 leafHash
    refine ⟨reads, root, htraced, ?_, hreads, hpos⟩
    rw [InclusionProof.verifyLoop_eq_map_traced, htraced]
    rfl
  · intro proof hsized
    exact ⟨fun hpos hlt => ConsistencyProof.climb_of_pathLen proof hpos hlt hsized.2,
      hsized.path_eq_nil, hsized.verify_cases⟩

end Mtc
