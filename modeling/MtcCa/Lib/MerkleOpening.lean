import MtcCa.Lib.MerkleBinding

/-! Openings of a Merkle root at a position, read off the root alone: no list of leaves
is assumed to stand behind it. The shape is that of the split recursion over the size. -/
namespace Merkle

variable {α : Type*} {f : α → α → α} {S T : Set (α × α)} {n i : ℕ} {a b root l r : α}
  {path path' : List α}

/-- `root`, taken as the hash of `n` leaves, opens to `a` at position `i` along `path`, lowest
sibling first; every pair hashed on the way is in `S`. -/
inductive Opens (f : α → α → α) (S : Set (α × α)) : ℕ → ℕ → α → List α → α → Prop where
  | leaf (a : α) : Opens f S 1 0 a [] a
  | left {n i : ℕ} {a l r : α} {path : List α} : 2 ≤ n → i < split n → (l, r) ∈ S →
      Opens f S (split n) i a path l → Opens f S n i a (path ++ [r]) (f l r)
  | right {n i : ℕ} {a l r : α} {path : List α} : 2 ≤ n → split n ≤ i → (l, r) ∈ S →
      Opens f S (n - split n) (i - split n) a path r → Opens f S n i a (path ++ [l]) (f l r)

theorem Opens.lt (h : Opens f S n i a path root) : i < n := by
  induction h with
  | leaf => omega
  | left hn hi _ _ _ =>
    have := split_lt hn
    omega
  | right hn hi _ _ ih =>
    have := split_lt hn
    omega

theorem Opens.mono (h : Opens f S n i a path root) (hs : S ⊆ T) : Opens f T n i a path root := by
  induction h with
  | leaf a => exact .leaf a
  | left hn hi hp _ ih => exact .left hn hi (hs hp) ih
  | right hn hi hp _ ih => exact .right hn hi (hs hp) ih

theorem opens_one_iff : Opens f S 1 i a path root ↔ i = 0 ∧ path = [] ∧ root = a := by
  constructor
  · intro h
    cases h with
    | leaf => exact ⟨rfl, rfl, rfl⟩
    | left hn => omega
    | right hn => omega
  · rintro ⟨rfl, rfl, rfl⟩
    exact .leaf root

theorem opens_left_iff (hn : 2 ≤ n) (hi : i < split n) : Opens f S n i a path root ↔
    ∃ l r rest, (l, r) ∈ S ∧ path = rest ++ [r] ∧ root = f l r ∧
      Opens f S (split n) i a rest l := by
  constructor
  · intro h
    cases h with
    | leaf => omega
    | left _ _ hp h => exact ⟨_, _, _, hp, rfl, rfl, h⟩
    | right _ hk => omega
  · rintro ⟨l, r, rest, hp, rfl, rfl, h⟩
    exact .left hn hi hp h

theorem opens_right_iff (hn : 2 ≤ n) (hi : split n ≤ i) : Opens f S n i a path root ↔
    ∃ l r rest, (l, r) ∈ S ∧ path = rest ++ [l] ∧ root = f l r ∧
      Opens f S (n - split n) (i - split n) a rest r := by
  constructor
  · intro h
    cases h with
    | leaf => omega
    | left _ hk => omega
    | right _ _ hp h => exact ⟨_, _, _, hp, rfl, rfl, h⟩
  · rintro ⟨l, r, rest, hp, rfl, rfl, h⟩
    exact .right hn hi hp h

theorem opens_nil_iff : Opens f S n i a [] root ↔ n = 1 ∧ i = 0 ∧ root = a := by
  constructor
  · intro h
    generalize hp : ([] : List α) = path at h
    cases h with
    | leaf => exact ⟨rfl, rfl, rfl⟩
    | left => simp at hp
    | right => simp at hp
  · rintro ⟨rfl, rfl, rfl⟩
    exact .leaf root

/-- A root opens at a position in one way only, unless two of the hashed pairs collide. -/
theorem Opens.unique (h : Opens f S n i a path root) (h' : Opens f S n i b path' root)
    (hcf : CollisionFreeOn f S) : a = b ∧ path = path' := by
  induction h generalizing path' with
  | leaf =>
    obtain ⟨-, rfl, rfl⟩ := opens_one_iff.mp h'
    exact ⟨rfl, rfl⟩
  | left hn hi hp _ ih =>
    obtain ⟨l', r', rest, hp', rfl, he, hrest⟩ := (opens_left_iff hn hi).mp h'
    obtain ⟨rfl, rfl⟩ := hcf.pair_eq hp hp' he
    obtain ⟨rfl, rfl⟩ := ih hrest
    exact ⟨rfl, rfl⟩
  | right hn hi hp _ ih =>
    obtain ⟨l', r', rest, hp', rfl, he, hrest⟩ := (opens_right_iff hn hi).mp h'
    obtain ⟨rfl, rfl⟩ := hcf.pair_eq hp hp' he
    obtain ⟨rfl, rfl⟩ := ih hrest
    exact ⟨rfl, rfl⟩

/-- One level of a climb from position `i` of `n`: the sibling taken, if any, and the hash that
stands at `i / 2` one level up. -/
inductive Climbs (f : α → α → α) (S : Set (α × α)) (n i : ℕ) (a : α) : List α → α → Prop where
  | odd {s : α} : i % 2 = 1 → (s, a) ∈ S → Climbs f S n i a [s] (f s a)
  | even {s : α} : i % 2 = 0 → i + 1 < n → (a, s) ∈ S → Climbs f S n i a [s] (f a s)
  | last : i % 2 = 0 → i + 1 = n → Climbs f S n i a [] a

/-- A level step depends on the parity of the position and on whether it is the last. -/
theorem Climbs.congr {m j : ℕ} (h : Climbs f S n i a path b) (hmod : j % 2 = i % 2)
    (hlt : i % 2 = 0 → i + 1 < n → j + 1 < m) (hlast : i % 2 = 0 → i + 1 = n → j + 1 = m) :
    Climbs f S m j a path b := by
  cases h with
  | odd hodd hp => exact .odd (hmod.trans hodd) hp
  | even heven hin hp => exact .even (hmod.trans heven) (hlt heven hin) hp
  | last heven hin => exact .last (hmod.trans heven) (hlast heven hin)

/-- Two leaves: the only split is the only level. -/
theorem opens_level_two (hi : i < 2) : Opens f S 2 i a path root ↔
    ∃ step rest b, path = step ++ rest ∧ Climbs f S 2 i a step b ∧ Opens f S 1 0 b rest root := by
  obtain rfl | rfl : i = 0 ∨ i = 1 := by omega
  · rw [opens_left_iff (le_refl 2) (by rw [split_two]; omega), split_two]
    constructor
    · rintro ⟨l, r, rest, hp, rfl, rfl, h⟩
      obtain ⟨-, rfl, rfl⟩ := opens_one_iff.mp h
      exact ⟨[r], [], f l r, rfl, .even rfl (by omega) hp, .leaf _⟩
    · rintro ⟨step, rest, b, rfl, hc, h⟩
      obtain ⟨-, rfl, rfl⟩ := opens_one_iff.mp h
      cases hc with
      | odd hodd => omega
      | even _ _ hp => exact ⟨a, _, [], hp, rfl, rfl, .leaf a⟩
      | last _ hlast => omega
  · rw [opens_right_iff (le_refl 2) (by rw [split_two]), split_two]
    constructor
    · rintro ⟨l, r, rest, hp, rfl, rfl, h⟩
      obtain ⟨-, rfl, rfl⟩ := opens_one_iff.mp h
      exact ⟨[l], [], f l r, rfl, .odd rfl hp, .leaf _⟩
    · rintro ⟨step, rest, b, rfl, hc, h⟩
      obtain ⟨-, rfl, rfl⟩ := opens_one_iff.mp h
      cases hc with
      | odd _ hp => exact ⟨_, a, [], hp, rfl, rfl, .leaf a⟩
      | even heven => omega
      | last heven => omega

/-- Openings can be read from the bottom: one level of the climb, then an opening of the same
root over half as many hashes. -/
theorem opens_level_iff (hi : i < n) : Opens f S n i a path root ↔
    ∃ step rest b, path = step ++ rest ∧ Climbs f S n i a step b ∧
      Opens f S ((n + 1) / 2) (i / 2) b rest root := by
  induction hk : n using Nat.strong_induction_on generalizing n i path root with
  | _ k ih =>
    subst hk
    obtain rfl | rfl | h3 : n = 1 ∨ n = 2 ∨ 3 ≤ n := by omega
    · obtain rfl : i = 0 := by omega
      constructor
      · exact fun h => ⟨[], path, a, rfl, .last rfl rfl, h⟩
      · rintro ⟨step, rest, b, rfl, hc, h⟩
        cases hc with
        | odd hodd => omega
        | even _ hlt => omega
        | last => exact h
    · rw [opens_level_two hi, show i / 2 = 0 by omega]
    · have hhalf := split_half h3
      have hlt := split_lt (n := n) (by omega)
      have hpos := split_pos ((n + 1) / 2)
      have hup := split_lt (n := (n + 1) / 2) (by omega)
      by_cases hk : i < split n
      · rw [opens_left_iff (by omega) hk]
        have ih := fun rest l => @ih (split n) hlt (split n) i l rest hk rfl
        rw [show (split n + 1) / 2 = split ((n + 1) / 2) by omega] at ih
        constructor
        · rintro ⟨l, r, rest, hp, rfl, rfl, h⟩
          obtain ⟨step, rest, b, rfl, hc, h⟩ := (ih _ _).mp h
          exact ⟨step, rest ++ [r], b, by rw [List.append_assoc],
            hc.congr rfl (by omega) (by omega), .left (by omega) (by omega) hp h⟩
        · rintro ⟨step, rest, b, rfl, hc, h⟩
          obtain ⟨l, r, rest, hp, rfl, rfl, hl⟩ := (opens_left_iff (by omega) (by omega)).mp h
          exact ⟨l, r, step ++ rest, hp, by rw [List.append_assoc], rfl,
            (ih _ _).mpr ⟨step, rest, b, rfl, hc.congr rfl (by omega) (by omega), hl⟩⟩
      · rw [opens_right_iff (by omega) (by omega)]
        have ih := fun rest r => @ih (n - split n) (by omega) (n - split n) (i - split n) r rest
          (by omega) rfl
        rw [show (n - split n + 1) / 2 = (n + 1) / 2 - split ((n + 1) / 2) by omega,
          show (i - split n) / 2 = i / 2 - split ((n + 1) / 2) by omega] at ih
        constructor
        · rintro ⟨l, r, rest, hp, rfl, rfl, h⟩
          obtain ⟨step, rest, b, rfl, hc, h⟩ := (ih _ _).mp h
          exact ⟨step, rest ++ [l], b, by rw [List.append_assoc],
            hc.congr (by omega) (by omega) (by omega), .right (by omega) (by omega) hp h⟩
        · rintro ⟨step, rest, b, rfl, hc, h⟩
          obtain ⟨l, r, rest, hp, rfl, rfl, hr⟩ := (opens_right_iff (by omega) (by omega)).mp h
          exact ⟨l, r, step ++ rest, hp, by rw [List.append_assoc], rfl,
            (ih _ _).mpr ⟨step, rest, b, rfl,
              hc.congr (by omega) (by omega) (by omega), hr⟩⟩

end Merkle
