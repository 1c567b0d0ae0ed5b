import MtcCa.Lib.MerkleOpening

/-! Append-only growth between two Merkle roots, again without the leaves: which roots of `n`
leaves can extend a given root of `m`. -/
namespace Merkle

variable {α : Type*} {f : α → α → α} {S T : Set (α × α)} {m n k i : ℕ}
  {a b a' b' old new mid : α} {path path' step : List α}

/-- `new`, taken as the hash of `n` leaves, keeps the first `m` of them as they are under `old`:
where the smaller tree ends inside a part, everything to the left of it is shared. -/
inductive Extends (f : α → α → α) (S : Set (α × α)) : ℕ → ℕ → α → α → Prop where
  | whole (n : ℕ) (a : α) : Extends f S n n a a
  | left {m n : ℕ} {old l r : α} : 2 ≤ n → m ≤ split n → (l, r) ∈ S →
      Extends f S m (split n) old l → Extends f S m n old (f l r)
  | right {m n : ℕ} {l o w : α} : 2 ≤ n → split n < m → (l, o) ∈ S → (l, w) ∈ S →
      Extends f S (m - split n) (n - split n) o w → Extends f S m n (f l o) (f l w)

theorem Extends.le (h : Extends f S m n old new) : m ≤ n := by
  induction h with
  | whole => exact le_refl _
  | left hn hm _ _ _ =>
    have := split_lt hn
    omega
  | right hn hm _ _ _ ih =>
    have := split_lt hn
    omega

theorem Extends.mono (h : Extends f S m n old new) (hs : S ⊆ T) : Extends f T m n old new := by
  induction h with
  | whole n a => exact .whole n a
  | left hn hm hp _ ih => exact .left hn hm (hs hp) ih
  | right hn hm ho hw _ ih => exact .right hn hm (hs ho) (hs hw) ih

theorem Extends.eq_of_size (h : Extends f S m n old new) (hmn : m = n) : old = new := by
  induction h with
  | whole => rfl
  | left hn hm _ _ _ =>
    have := split_lt hn
    omega
  | right _ _ _ _ _ ih => rw [ih (by omega)]

theorem extends_left_iff (hn : 2 ≤ n) (hm : m ≤ split n) : Extends f S m n old new ↔
    ∃ l r, (l, r) ∈ S ∧ new = f l r ∧ Extends f S m (split n) old l := by
  constructor
  · intro h
    cases h with
    | whole =>
      have := split_lt hn
      omega
    | left _ _ hp h => exact ⟨_, _, hp, rfl, h⟩
    | right _ hk => omega
  · rintro ⟨l, r, hp, rfl, h⟩
    exact .left hn hm hp h

theorem extends_right_iff (hn : 2 ≤ n) (hm : split n < m) (hmn : m < n) :
    Extends f S m n old new ↔ ∃ l o w, (l, o) ∈ S ∧ (l, w) ∈ S ∧ old = f l o ∧ new = f l w ∧
      Extends f S (m - split n) (n - split n) o w := by
  constructor
  · intro h
    cases h with
    | whole => omega
    | left _ hk => omega
    | right _ _ ho hw h => exact ⟨_, _, _, ho, hw, rfl, rfl, h⟩
  · rintro ⟨l, o, w, ho, hw, rfl, rfl, h⟩
    exact .right hn hm ho hw h

/-- A size above the split point of a larger one splits at the same point. -/
theorem split_eq_of_between (h : split n < m) (hle : m ≤ n) (hn : 2 ≤ n) : split m = split n := by
  have := le_two_mul_split hn
  exact split_unique h (by unfold split at this; omega)

/-- Growth in two stages is growth, unless two of the hashed pairs collide. -/
theorem Extends.trans (hcf : CollisionFreeOn f S) (h : Extends f S m n old mid)
    (h' : Extends f S n k mid new) : Extends f S m k old new := by
  induction h' generalizing m old with
  | whole => exact h
  | @left n k mid l r hk hn hp _ ih => exact .left hk (h.le.trans hn) hp (ih h)
  | @right n k l o w hk hn ho hw hrest ih =>
    have hle := hrest.le
    have hsplit := split_eq_of_between hn (by have := split_lt hk; omega) hk
    have hpos := split_pos k
    by_cases hm : m ≤ split k
    · obtain ⟨l', r', hp', he, hl⟩ := (extends_left_iff (by omega) (by omega)).mp h
      obtain ⟨rfl, rfl⟩ := hcf.pair_eq ho hp' he
      exact .left hk hm hw (hsplit ▸ hl)
    · rcases h.le.eq_or_lt with rfl | hmn
      · obtain rfl := h.eq_of_size rfl
        exact .right hk hn ho hw hrest
      · obtain ⟨l', o', w', ho', hw', rfl, he, hr⟩ :=
          (extends_right_iff (by omega) (by omega) hmn).mp h
        obtain ⟨rfl, rfl⟩ := hcf.pair_eq ho hw' he
        rw [hsplit] at hr
        exact .right hk (by omega) ho' hw (ih hr)

/-- What the old root opens to, the new root opens to at the same position. -/
theorem Extends.opens (hcf : CollisionFreeOn f S) (h : Extends f S m n old new)
    (ho : Opens f S m i a path old) : ∃ path', Opens f S n i a path' new := by
  induction h generalizing i path with
  | whole => exact ⟨path, ho⟩
  | left hn hm hp _ ih =>
    have := ho.lt
    obtain ⟨path', h⟩ := ih ho
    exact ⟨_, .left hn (by omega) hp h⟩
  | @right m n l o w hn hm hpo hpw hrest ih =>
    have hle := hrest.le
    have hsplit := split_eq_of_between hm (by have := split_lt hn; omega) hn
    have hpos := split_pos n
    by_cases hi : i < split n
    · obtain ⟨l', r', rest, hp, rfl, he, hl⟩ := (opens_left_iff (by omega) (by omega)).mp ho
      obtain ⟨rfl, rfl⟩ := hcf.pair_eq hpo hp he
      exact ⟨_, .left hn hi hpw (hsplit ▸ hl)⟩
    · obtain ⟨l', r', rest, hp, rfl, he, hr⟩ := (opens_right_iff (by omega) (by omega)).mp ho
      obtain ⟨rfl, rfl⟩ := hcf.pair_eq hpo hp he
      rw [hsplit] at hr
      obtain ⟨path', h⟩ := ih hr
      exact ⟨_, .right hn (by omega) hpw h⟩

/-- Two roots of which one extends the other never open to different hashes at one position. -/
theorem Extends.agree (hcf : CollisionFreeOn f S) (h : Extends f S m n old new)
    (ho : Opens f S m i a path old) (hn : Opens f S n i b path' new) : a = b := by
  obtain ⟨path'', h'⟩ := h.opens hcf ho
  exact (h'.unique hn hcf).1

/-- A climb from the last of the first `m` hashes in two trees at once: `a` stands there in the
tree of `m` and leads to `old`, `b` stands there in the tree of `n` and leads to `new`. The left
siblings on `path` are shared, the right ones belong to the larger tree. -/
inductive Joint (f : α → α → α) (S : Set (α × α)) : ℕ → ℕ → α → α → List α → α → α → Prop where
  | leaf (a b : α) : Joint f S 1 1 a b [] a b
  | left {m n : ℕ} {a b old l r : α} {path : List α} : 2 ≤ n → m ≤ split n → (l, r) ∈ S →
      Joint f S m (split n) a b path old l → Joint f S m n a b (path ++ [r]) old (f l r)
  | right {m n : ℕ} {a b l o w : α} {path : List α} : 2 ≤ n → split n < m → (l, o) ∈ S →
      (l, w) ∈ S → Joint f S (m - split n) (n - split n) a b path o w →
      Joint f S m n a b (path ++ [l]) (f l o) (f l w)

theorem Joint.bounds (h : Joint f S m n a b path old new) : 0 < m ∧ m ≤ n := by
  induction h with
  | leaf => omega
  | left hn hm _ _ ih =>
    have := split_lt hn
    omega
  | right hn hm _ _ _ ih =>
    have := split_lt hn
    omega

/-- Started from one hash in both trees, the climb shows the larger to extend the smaller. -/
theorem Joint.extends (h : Joint f S m n a b path old new) (hab : a = b) :
    Extends f S m n old new := by
  induction h with
  | leaf => exact hab ▸ .whole 1 _
  | left hn hm hp _ ih => exact .left hn hm hp (ih hab)
  | right hn hm ho hw _ ih => exact .right hn hm ho hw (ih hab)

/-- The larger tree opens to its own hash along the shared path. -/
theorem Joint.opens (h : Joint f S m n a b path old new) : Opens f S n (m - 1) b path new := by
  induction h with
  | leaf => exact .leaf _
  | left hn hm hp hrest ih =>
    have := hrest.bounds
    exact .left hn (by omega) hp ih
  | right hn hm _ hw _ ih =>
    have := split_lt hn
    exact .right hn (by omega) hw (by rwa [Nat.sub_right_comm])

/-- A smaller tree of one hash is that hash. -/
theorem Joint.old_eq (h : Joint f S m n a b path old new) (hm : m = 1) : old = a := by
  induction h with
  | leaf => rfl
  | left _ _ _ _ ih => exact ih hm
  | @right m n =>
    have := split_pos n
    omega

/-- Only a larger tree of one hash has nothing left to climb. -/
theorem Joint.of_nil (h : Joint f S m n a b [] old new) : n = 1 :=
  (opens_nil_iff.mp h.opens).1

theorem joint_left_iff (hn : 2 ≤ n) (hm : m ≤ split n) : Joint f S m n a b path old new ↔
    ∃ l r rest, (l, r) ∈ S ∧ path = rest ++ [r] ∧ new = f l r ∧
      Joint f S m (split n) a b rest old l := by
  constructor
  · intro h
    cases h with
    | leaf => omega
    | left _ _ hp h => exact ⟨_, _, _, hp, rfl, rfl, h⟩
    | right _ hk => omega
  · rintro ⟨l, r, rest, hp, rfl, rfl, h⟩
    exact .left hn hm hp h

theorem joint_right_iff (hn : 2 ≤ n) (hm : split n < m) : Joint f S m n a b path old new ↔
    ∃ l o w rest, (l, o) ∈ S ∧ (l, w) ∈ S ∧ path = rest ++ [l] ∧ old = f l o ∧ new = f l w ∧
      Joint f S (m - split n) (n - split n) a b rest o w := by
  constructor
  · intro h
    cases h with
    | leaf => omega
    | left _ hk => omega
    | right _ _ ho hw h => exact ⟨_, _, _, _, ho, hw, rfl, rfl, rfl, h⟩
  · rintro ⟨l, o, w, rest, ho, hw, rfl, rfl, rfl, h⟩
    exact .right hn hm ho hw h

theorem joint_one_iff : Joint f S m 1 a b path old new ↔
    m = 1 ∧ path = [] ∧ old = a ∧ new = b := by
  constructor
  · intro h
    cases h with
    | leaf => exact ⟨rfl, rfl, rfl, rfl⟩
    | left hn => omega
    | right hn => omega
  · rintro ⟨rfl, rfl, rfl, rfl⟩
    exact .leaf old new

/-- The climb between two roots is the only one, unless two of the hashed pairs collide. -/
theorem Joint.unique (h : Joint f S m n a b path old new)
    (h' : Joint f S m n a' b' path' old new) (hcf : CollisionFreeOn f S) :
    a = a' ∧ b = b' ∧ path = path' := by
  induction h generalizing path' with
  | leaf =>
    obtain ⟨-, rfl, rfl, rfl⟩ := joint_one_iff.mp h'
    exact ⟨rfl, rfl, rfl⟩
  | left hn hm hp _ ih =>
    obtain ⟨l', r', rest, hp', rfl, he, hrest⟩ := (joint_left_iff hn hm).mp h'
    obtain ⟨rfl, rfl⟩ := hcf.pair_eq hp hp' he
    obtain ⟨rfl, rfl, rfl⟩ := ih hrest
    exact ⟨rfl, rfl, rfl⟩
  | right hn hm ho hw _ ih =>
    obtain ⟨l', o', w', rest, ho', hw', rfl, he, he', hrest⟩ := (joint_right_iff hn hm).mp h'
    obtain ⟨rfl, rfl⟩ := hcf.pair_eq ho ho' he
    obtain ⟨-, rfl⟩ := hcf.pair_eq hw hw' he'
    obtain ⟨rfl, rfl, rfl⟩ := ih hrest
    exact ⟨rfl, rfl, rfl⟩

/-- One level of the joint climb. Below an even `m` both hashes have the same left sibling;
at an odd `m` the smaller tree's hash is promoted. -/
inductive JointClimbs (f : α → α → α) (S : Set (α × α)) (m n : ℕ) (a b : α) :
    List α → α → α → Prop where
  | even {p : α} : m % 2 = 0 → (p, a) ∈ S → (p, b) ∈ S →
      JointClimbs f S m n a b [p] (f p a) (f p b)
  | odd {p : α} : m % 2 = 1 → m < n → (b, p) ∈ S → JointClimbs f S m n a b [p] a (f b p)
  | last : m % 2 = 1 → m = n → JointClimbs f S m n a b [] a b

theorem JointClimbs.congr {m' n' : ℕ} (h : JointClimbs f S m n a b step a' b')
    (hmod : m' % 2 = m % 2) (hlt : m % 2 = 1 → m < n → m' < n')
    (hlast : m % 2 = 1 → m = n → m' = n') : JointClimbs f S m' n' a b step a' b' := by
  cases h with
  | even heven ho hw => exact .even (hmod.trans heven) ho hw
  | odd hodd hmn hp => exact .odd (hmod.trans hodd) (hlt hodd hmn) hp
  | last hodd hmn => exact .last (hmod.trans hodd) (hlast hodd hmn)

theorem joint_level_two (hpos : 0 < m) (hm : m ≤ 2) : Joint f S m 2 a b path old new ↔
    ∃ step rest a' b', path = step ++ rest ∧ JointClimbs f S m 2 a b step a' b' ∧
      Joint f S 1 1 a' b' rest old new := by
  obtain rfl | rfl : m = 1 ∨ m = 2 := by omega
  · rw [joint_left_iff (le_refl 2) (by rw [split_two]), split_two]
    constructor
    · rintro ⟨l, r, rest, hp, rfl, rfl, h⟩
      obtain ⟨-, rfl, rfl, rfl⟩ := joint_one_iff.mp h
      exact ⟨[r], [], _, _, rfl, .odd rfl (by omega) hp, .leaf _ _⟩
    · rintro ⟨step, rest, a', b', rfl, hc, h⟩
      obtain ⟨-, rfl, rfl, rfl⟩ := joint_one_iff.mp h
      cases hc with
      | even heven => omega
      | odd _ _ hp => exact ⟨b, _, [], hp, rfl, rfl, .leaf _ _⟩
      | last _ hlast => omega
  · rw [joint_right_iff (le_refl 2) (by rw [split_two]; omega), split_two]
    constructor
    · rintro ⟨l, o, w, rest, ho, hw, rfl, rfl, rfl, h⟩
      obtain ⟨-, rfl, rfl, rfl⟩ := joint_one_iff.mp h
      exact ⟨[l], [], _, _, rfl, .even rfl ho hw, .leaf _ _⟩
    · rintro ⟨step, rest, a', b', rfl, hc, h⟩
      obtain ⟨-, rfl, rfl, rfl⟩ := joint_one_iff.mp h
      cases hc with
      | even _ ho hw => exact ⟨_, a, b, [], ho, hw, rfl, rfl, rfl, .leaf _ _⟩
      | odd hodd => omega
      | last hodd => omega

/-- The joint climb read from the bottom. -/
theorem joint_level_iff (hpos : 0 < m) (hmn : m ≤ n) : Joint f S m n a b path old new ↔
    ∃ step rest a' b', path = step ++ rest ∧ JointClimbs f S m n a b step a' b' ∧
      Joint f S ((m + 1) / 2) ((n + 1) / 2) a' b' rest old new := by
  induction hk : n using Nat.strong_induction_on generalizing m n path old new with
  | _ k ih =>
    subst hk
    obtain rfl | rfl | h3 : n = 1 ∨ n = 2 ∨ 3 ≤ n := by omega
    · obtain rfl : m = 1 := by omega
      constructor
      · exact fun h => ⟨[], path, a, b, rfl, .last rfl rfl, h⟩
      · rintro ⟨step, rest, a', b', rfl, hc, h⟩
        cases hc with
        | even heven => omega
        | odd _ hlt => omega
        | last => exact h
    · rw [joint_level_two hpos hmn, show (m + 1) / 2 = 1 by omega]
    · have hhalf := split_half h3
      have hlt := split_lt (n := n) (by omega)
      have hpos' := split_pos ((n + 1) / 2)
      by_cases hk : m ≤ split n
      · rw [joint_left_iff (by omega) hk]
        have ih := fun rest l => @ih (split n) hlt m (split n) old l rest hpos hk rfl
        rw [show (split n + 1) / 2 = split ((n + 1) / 2) by omega] at ih
        constructor
        · rintro ⟨l, r, rest, hp, rfl, rfl, h⟩
          obtain ⟨step, rest, a', b', rfl, hc, h⟩ := (ih _ _).mp h
          exact ⟨step, rest ++ [r], a', b', by rw [List.append_assoc],
            hc.congr rfl (by omega) (by omega), .left (by omega) (by omega) hp h⟩
        · rintro ⟨step, rest, a', b', rfl, hc, h⟩
          obtain ⟨l, r, rest, hp, rfl, rfl, hl⟩ := (joint_left_iff (by omega) (by omega)).mp h
          exact ⟨l, r, step ++ rest, hp, by rw [List.append_assoc], rfl,
            (ih _ _).mpr ⟨step, rest, a', b', rfl, hc.congr rfl (by omega) (by omega), hl⟩⟩
      · rw [joint_right_iff (by omega) (by omega)]
        have ih := fun rest o w => @ih (n - split n) (by omega) (m - split n) (n - split n) o w rest
          (by omega) (by omega) rfl
        rw [show (n - split n + 1) / 2 = (n + 1) / 2 - split ((n + 1) / 2) by omega,
          show (m - split n + 1) / 2 = (m + 1) / 2 - split ((n + 1) / 2) by omega] at ih
        constructor
        · rintro ⟨l, o, w, rest, ho, hw, rfl, rfl, rfl, h⟩
          obtain ⟨step, rest, a', b', rfl, hc, h⟩ := (ih _ _ _).mp h
          exact ⟨step, rest ++ [l], a', b', by rw [List.append_assoc],
            hc.congr (by omega) (by omega) (by omega), .right (by omega) (by omega) ho hw h⟩
        · rintro ⟨step, rest, a', b', rfl, hc, h⟩
          obtain ⟨l, o, w, rest, ho, hw, rfl, rfl, rfl, hr⟩ :=
            (joint_right_iff (by omega) (by omega)).mp h
          exact ⟨l, o, w, step ++ rest, ho, hw, by rw [List.append_assoc], rfl, rfl,
            (ih _ _ _).mpr ⟨step, rest, a', b', rfl,
              hc.congr (by omega) (by omega) (by omega), hr⟩⟩

/-- An even old size can be halved together with the level. -/
theorem extends_half_iff (hpos : 0 < m) (hmn : m ≤ n) (heven : m % 2 = 0) :
    Extends f S m n old new ↔ Extends f S (m / 2) ((n + 1) / 2) old new := by
  induction hk : n using Nat.strong_induction_on generalizing m n old new with
  | _ k ih =>
    subst hk
    rcases hmn.eq_or_lt with rfl | hlt
    · rw [show (m + 1) / 2 = m / 2 by omega]
      exact ⟨fun h => h.eq_of_size rfl ▸ .whole _ _, fun h => h.eq_of_size rfl ▸ .whole _ _⟩
    · have hhalf := split_half (n := n) (by omega)
      have hsplit := split_lt (n := n) (by omega)
      have hpos' := split_pos ((n + 1) / 2)
      by_cases hk : m ≤ split n
      · rw [extends_left_iff (by omega) hk, extends_left_iff (by omega) (by omega)]
        have ih := fun l => @ih (split n) hsplit m (split n) old l hpos hk heven rfl
        simp only [ih, show (split n + 1) / 2 = split ((n + 1) / 2) by omega]
      · have ih := fun o w => @ih (n - split n) (by omega) (m - split n) (n - split n) o w
          (by omega) (by omega) (by omega) rfl
        rw [show (m - split n) / 2 = m / 2 - split ((n + 1) / 2) by omega,
          show (n - split n + 1) / 2 = (n + 1) / 2 - split ((n + 1) / 2) by omega] at ih
        rw [extends_right_iff (by omega) (by omega) hlt,
          extends_right_iff (by omega) (by omega) (by omega)]
        simp only [ih]

/-- At an odd old size below the new one, growth is a climb from one common hash. -/
theorem Extends.exists_joint (h : Extends f S m n old new) (hodd : m % 2 = 1) (hmn : m < n) :
    ∃ a path, Joint f S m n a a path old new := by
  induction h with
  | whole => omega
  | @left m n old l r hn hm hp hrest ih =>
    rcases hm.eq_or_lt with hk | hk
    · -- an odd split point is the split of two leaves
      have hone : m = 1 := by
        by_contra
        have := split_half (n := n) (by omega)
        omega
      rw [hone] at hk hrest ⊢
      obtain rfl := hrest.eq_of_size hk
      have hleaf : Joint f S 1 (split n) old old [] old old := by
        rw [← hk]
        exact .leaf old old
      exact ⟨old, _, .left hn (split_pos n) hp hleaf⟩
    · obtain ⟨a, path, h⟩ := ih hodd hk
      exact ⟨a, _, .left hn hm hp h⟩
  | @right m n l o w hn hm ho hw _ ih =>
    have hpos := split_pos n
    have hhalf := split_half (n := n) (by omega)
    obtain ⟨a, path, h⟩ := ih (by omega) (by omega)
    exact ⟨a, _, .right hn hm ho hw h⟩

end Merkle
