import MtcCa.Acme.Account

/-! The two indexes of the account store agree, and its ids count up from one. -/
namespace Acme

variable {L : Libraries} {accounts : AccountStore} {a : Account} {tp : JwkThumbprint}
variable {id : AccountId} {jwk : Jwk} {asked : NewAccountRequest}

/-- The two indexes and the counter belong together. -/
structure AccountStore.Indexed (L : Libraries) (accounts : AccountStore) : Prop where
  key : ∀ tp a, accounts.byThumbprint.get? tp = some a →
    a.thumbprint = tp ∧ a.key.thumbprint L = tp
  index : ∀ id tp, accounts.idIndex.get? id = some tp ↔
    ∃ a, accounts.byThumbprint.get? tp = some a ∧ a.id = id
  ids : ∀ k, (∃ tp, accounts.idIndex.get? ⟨k⟩ = some tp) ↔ 1 ≤ k ∧ k < accounts.nextId
  count : accounts.nextId = accounts.len + 1

namespace AccountStore

/-- The account a request registers in a store without its key. -/
def created (L : Libraries) (accounts : AccountStore) (jwk : Jwk) (asked : NewAccountRequest) :
    Account where
  id := ⟨accounts.nextId⟩
  key := jwk
  thumbprint := jwk.thumbprint L
  status := .valid
  contact := asked.contact
  termsOfServiceAgreed := asked.termsOfServiceAgreed

/-- The store with that account. -/
def withCreated (L : Libraries) (accounts : AccountStore) (jwk : Jwk)
    (asked : NewAccountRequest) : AccountStore where
  nextId := accounts.nextId + 1
  byThumbprint := accounts.byThumbprint.insert (jwk.thumbprint L) (accounts.created L jwk asked)
  idIndex := accounts.idIndex.insert ⟨accounts.nextId⟩ (jwk.thumbprint L)

theorem getOrCreate_eq (h : accounts.findByThumbprint (jwk.thumbprint L) = none) :
    accounts.getOrCreate L jwk asked =
      ((accounts.created L jwk asked, true), accounts.withCreated L jwk asked) := by
  have hget : accounts.byThumbprint.get? (jwk.thumbprint L) = none := h
  simp only [getOrCreate, hget]
  rfl

/-- What a request does to the accounts, in three cases. -/
theorem register_cases (L : Libraries) (accounts : AccountStore) (jwk : Jwk)
    (asked : NewAccountRequest) :
    (∃ a, accounts.findByThumbprint (jwk.thumbprint L) = some a ∧
      accounts.register L jwk asked = (.ok (a, false), accounts)) ∨
    (accounts.findByThumbprint (jwk.thumbprint L) = none ∧ asked.onlyReturnExisting ∧
      accounts.register L jwk asked = (.error .accountDoesNotExist, accounts)) ∨
    (accounts.findByThumbprint (jwk.thumbprint L) = none ∧ asked.onlyReturnExisting = false ∧
      accounts.register L jwk asked =
        (.ok (accounts.created L jwk asked, true), accounts.withCreated L jwk asked)) := by
  unfold register
  cases h : accounts.findByThumbprint (jwk.thumbprint L) with
  | some a => exact .inl ⟨a, rfl, rfl⟩
  | none =>
    cases honly : asked.onlyReturnExisting with
    | true => exact .inr (.inl ⟨rfl, rfl, rfl⟩)
    | false =>
      refine .inr (.inr ⟨rfl, rfl, ?_⟩)
      rw [getOrCreate_eq h]
      rfl

theorem find_withCreated : (accounts.withCreated L jwk asked).findByThumbprint tp =
    if tp = jwk.thumbprint L then some (accounts.created L jwk asked)
    else accounts.findByThumbprint tp :=
  FiniteMap.get?_insert

theorem indexed_new : Indexed L .new where
  key := by
    intro tp a h
    cases (FiniteMap.get?_empty (k := tp)).symm.trans h
  index := by
    intro id tp
    constructor
    · intro h
      cases (FiniteMap.get?_empty (k := id)).symm.trans h
    · rintro ⟨a, h, -⟩
      cases (FiniteMap.get?_empty (k := tp)).symm.trans h
  ids := by
    intro k
    constructor
    · rintro ⟨tp, h⟩
      cases (FiniteMap.get?_empty (k := (⟨k⟩ : AccountId))).symm.trans h
    · rintro ⟨hk, hlt⟩
      exact absurd hlt (not_lt.mpr hk)
  count := rfl

section indexed

variable (h : accounts.Indexed L)
include h

theorem Indexed.idIndex_nextId : accounts.idIndex.get? ⟨accounts.nextId⟩ = none := by
  by_contra hne
  obtain ⟨tp, htp⟩ := Option.ne_none_iff_exists'.mp hne
  exact absurd ((h.ids _).mp ⟨tp, htp⟩).2 (lt_irrefl _)

theorem Indexed.id_ne (ha : accounts.byThumbprint.get? tp = some a) : a.id ≠ ⟨accounts.nextId⟩ := by
  intro hid
  have hindex := (h.index _ _).mpr ⟨a, ha, hid⟩
  rw [h.idIndex_nextId] at hindex
  cases hindex

theorem Indexed.withCreated (hnone : accounts.findByThumbprint (jwk.thumbprint L) = none) :
    (accounts.withCreated L jwk asked).Indexed L where
  key := by
    intro tp a ha
    have hfind := find_withCreated.symm.trans ha
    split at hfind
    · next heq =>
      cases hfind
      exact ⟨heq.symm, heq.symm⟩
    · exact h.key tp a hfind
  index := by
    intro id tp
    change (accounts.idIndex.insert ⟨accounts.nextId⟩ (jwk.thumbprint L)).get? id = some tp ↔
      ∃ a, (accounts.withCreated L jwk asked).findByThumbprint tp = some a ∧ a.id = id
    rw [FiniteMap.get?_insert, find_withCreated]
    by_cases hid : id = ⟨accounts.nextId⟩
    · subst hid
      rw [if_pos rfl]
      by_cases htp : tp = jwk.thumbprint L
      · rw [htp, if_pos rfl]
        exact ⟨fun _ => ⟨_, rfl, rfl⟩, fun _ => rfl⟩
      · rw [if_neg htp]
        refine ⟨fun heq => absurd (Option.some.inj heq).symm htp, ?_⟩
        rintro ⟨a, ha, hida⟩
        exact absurd hida (h.id_ne ha)
    · rw [if_neg hid, h.index]
      by_cases htp : tp = jwk.thumbprint L
      · subst htp
        rw [if_pos rfl]
        constructor
        · rintro ⟨a, ha, -⟩
          cases hnone.symm.trans ha
        · rintro ⟨a, ha, hida⟩
          cases ha
          exact absurd hida.symm hid
      · rw [if_neg htp]
        rfl
  ids := by
    intro k
    change (∃ tp, (accounts.idIndex.insert ⟨accounts.nextId⟩ (jwk.thumbprint L)).get? ⟨k⟩ =
      some tp) ↔ 1 ≤ k ∧ k < accounts.nextId + 1
    have hpos : 1 ≤ accounts.nextId := by
      rw [h.count]
      omega
    rw [FiniteMap.get?_insert]
    by_cases hk : k = accounts.nextId
    · subst hk
      rw [if_pos rfl]
      exact ⟨fun _ => ⟨hpos, Nat.lt_succ_self _⟩, fun _ => ⟨_, rfl⟩⟩
    · rw [if_neg (fun he => hk (AccountId.mk.inj he)), h.ids]
      omega
  count := by
    have hnotMem : jwk.thumbprint L ∉ accounts.byThumbprint.keys := by
      rw [FiniteMap.mem_keys_iff]
      have hget : accounts.byThumbprint.get? (jwk.thumbprint L) = none := hnone
      simp [hget]
    change accounts.nextId + 1 =
      (Insert.insert (jwk.thumbprint L) accounts.byThumbprint.keys).card + 1
    rw [Finset.card_insert_of_notMem hnotMem, h.count]
    rfl

/-- What is found by an id is what is found by its thumbprint. -/
theorem Indexed.findById_eq_some_iff : accounts.findById id = some a ↔
    accounts.findByThumbprint a.thumbprint = some a ∧ a.id = id := by
  rw [findById, Option.bind_eq_some_iff]
  constructor
  · rintro ⟨tp, hindex, ha⟩
    obtain ⟨b, hb, hid⟩ := (h.index _ _).mp hindex
    obtain rfl : b = a := Option.some.inj (hb.symm.trans ha)
    obtain ⟨htp, -⟩ := h.key _ _ ha
    exact ⟨htp ▸ ha, hid⟩
  · rintro ⟨ha, hid⟩
    exact ⟨a.thumbprint, (h.index _ _).mpr ⟨a, ha, hid⟩, ha⟩

theorem Indexed.ids_iff (k : ℕ) :
    (∃ a, accounts.findById ⟨k⟩ = some a) ↔ 1 ≤ k ∧ k ≤ accounts.len := by
  have hids := h.ids k
  rw [h.count, Nat.lt_succ_iff] at hids
  rw [← hids]
  constructor
  · rintro ⟨a, ha⟩
    obtain ⟨hfind, hid⟩ := h.findById_eq_some_iff.mp ha
    exact ⟨a.thumbprint, (h.index _ _).mpr ⟨a, hfind, hid⟩⟩
  · rintro ⟨tp, htp⟩
    obtain ⟨a, ha, hid⟩ := (h.index _ _).mp htp
    refine ⟨a, h.findById_eq_some_iff.mpr ⟨?_, hid⟩⟩
    rw [(h.key _ _ ha).1]
    exact ha

/-- No number is beyond the size of the store. -/
theorem Indexed.id_le_len (ha : accounts.findByThumbprint tp = some a) :
    a.id.val ≤ accounts.len := by
  obtain ⟨htp, -⟩ := h.key tp a ha
  exact ((h.ids_iff a.id.val).mp ⟨a, h.findById_eq_some_iff.mpr ⟨htp ▸ ha, rfl⟩⟩).2

end indexed

end AccountStore

end Acme
