import MtcCa.Checkpoint.Canonical
import MtcCa.LogEntry.Canonical
import MtcCa.Lib.SelfDelimiting

/-! Leaf bytes and leaf hashes commit to one entry. -/
namespace Mtc

open Encoding

variable {α : Type} {w : ℕ} {b b' s s' : List UInt8}

/-- Every value of a type is written with its own end. -/
def Delimits (α : Type) [TlsSerialize α] : Prop :=
  SelfDelimiting (tlsSerialize : α → Except WriteError (List UInt8))

theorem selfDelimiting_writeOpaque : SelfDelimiting (writeOpaque w) := by
  intro a a' b b' s s' ha ha' heq
  obtain ⟨hlt, rfl⟩ := writeOpaque_eq_ok_iff.mp ha
  obtain ⟨hlt', rfl⟩ := writeOpaque_eq_ok_iff.mp ha'
  rw [List.append_assoc, List.append_assoc] at heq
  exact lengthPrefixed_inj hlt hlt' heq

theorem delimits_bytes {n : ℕ} : Delimits (Bytes n) := by
  refine of_length (n := n) ?_ ?_
  · intro v b hv
    cases hv
    exact v.toList_length
  · intro v v' b hv hv'
    cases hv
    exact List.Vector.eq _ _ (Except.ok.inj hv').symm

section vectors

variable [TlsSerialize α] {items items' : List α}

/-- A body splits into items in one way. -/
theorem serializeItems_inj (hd : Delimits α) (hne : NeverEmpty α)
    (h : serializeItems items = .ok b) (h' : serializeItems items' = .ok b) : items = items' := by
  induction items generalizing items' b with
  | nil =>
    cases h
    exact (eq_nil_of_serializeItems hne h').symm
  | cons item items ih =>
    cases items' with
    | nil =>
      cases h'
      exact eq_nil_of_serializeItems hne h
    | cons item' items' =>
      obtain ⟨b₁, b₂, hb₁, hb₂, rfl⟩ := serializeItems_cons_eq_ok_iff.mp h
      obtain ⟨c₁, c₂, hc₁, hc₂, heq⟩ := serializeItems_cons_eq_ok_iff.mp h'
      obtain ⟨rfl, rfl⟩ := hd hb₁ hc₁ heq
      rw [ih hb₂ hc₂]

theorem selfDelimiting_writeVector (hd : Delimits α) (hne : NeverEmpty α) :
    SelfDelimiting (writeVector w : List α → Except WriteError (List UInt8)) := by
  intro items items' b b' s s' h h' heq
  obtain ⟨body, hbody, h⟩ := Outcome.bind_eq_ok_iff.mp h
  obtain ⟨body', hbody', h'⟩ := Outcome.bind_eq_ok_iff.mp h'
  obtain ⟨rfl, hs⟩ := selfDelimiting_writeOpaque h h' heq
  exact ⟨serializeItems_inj hd hne hbody hbody', hs⟩

end vectors

theorem delimits_dnsName : Delimits DnsName := by
  have hinj : Function.Injective DnsName.bytes := by
    rintro ⟨bytes, hne, hle⟩ ⟨bytes', hne', hle'⟩ rfl
    rfl
  exact (selfDelimiting_writeOpaque (w := 1)).comap hinj

namespace Claim

/-- Within one claim type the body determines the claim, the empty lists included. -/
theorem serializeClaimInfo_inj {claim claim' : Claim} (htype : claim.claimType = claim'.claimType)
    (h : claim.serializeClaimInfo = .ok b) (h' : claim'.serializeClaimInfo = .ok b) :
    claim = claim' := by
  have hnames := selfDelimiting_writeVector (w := 2) delimits_dnsName neverEmpty_dnsName
  have hipv4 := selfDelimiting_writeVector (w := 2) (delimits_bytes (n := 4))
    (neverEmpty_bytes (by decide))
  have hipv6 := selfDelimiting_writeVector (w := 2) (delimits_bytes (n := 16))
    (neverEmpty_bytes (by decide))
  cases claim with
  | dns names =>
    cases claim' <;> cases htype
    rw [hnames.eq h h']
  | dnsWildcard names =>
    cases claim' <;> cases htype
    rw [hnames.eq h h']
  | ipv4 addresses =>
    cases claim' <;> cases htype
    have hinj : Function.Injective Ipv4Addr.octets := fun ⟨_⟩ ⟨_⟩ h => congrArg _ h
    rw [hinj.list_map (hipv4.eq h h')]
  | ipv6 addresses =>
    cases claim' <;> cases htype
    have hinj : Function.Injective Ipv6Addr.octets := fun ⟨_⟩ ⟨_⟩ h => congrArg _ h
    rw [hinj.list_map (hipv6.eq h h')]

end Claim

theorem ClaimType.code_injective : Function.Injective ClaimType.code := by
  intro t t' h
  have hcode := ClaimType.fromCode_eq_some_iff.mpr h
  rw [ClaimType.fromCode_eq_some_iff.mpr rfl] at hcode
  exact Option.some.inj hcode

theorem delimits_claim : Delimits Claim := by
  intro claim claim' b b' s s' h h' heq
  obtain ⟨body, info, hbody, hinfo, rfl⟩ := claim_serialize_eq_ok_iff.mp h
  obtain ⟨body', info', hbody', hinfo', rfl⟩ := claim_serialize_eq_ok_iff.mp h'
  rw [List.append_assoc, List.append_assoc] at heq
  obtain ⟨hcode, heq⟩ := List.append_inj heq (by simp)
  obtain ⟨rfl, hs⟩ := selfDelimiting_writeOpaque hinfo hinfo' heq
  have hnat := BigEndian.encode_inj (UInt16.toNat_lt _) (UInt16.toNat_lt _) hcode
  have htype := ClaimType.code_injective (UInt16.toNat_inj.mp hnat)
  exact ⟨Claim.serializeClaimInfo_inj htype hbody hbody', hs⟩

theorem delimits_subjectType : Delimits SubjectType := by
  refine of_length (n := 2) ?_ ?_
  · intro t b h
    cases h
    exact BigEndian.length_encode
  · intro t t' b _ _
    cases t
    cases t'
    rfl

theorem delimits_subjectInfoHash : Delimits SubjectInfoHash :=
  delimits_bytes.comap (f := fun hash : SubjectInfoHash => hash.hash.bytes)
    (fun ⟨⟨_⟩⟩ ⟨⟨_⟩⟩ h => by cases h; rfl)

theorem delimits_tbsCertificateLogEntry : Delimits TbsCertificateLogEntry := by
  intro entry entry' b b' s s' h h' heq
  obtain ⟨b₁, h₁, h⟩ := Outcome.bind_eq_ok_iff.mp h
  obtain ⟨b₂, h₂, h⟩ := Outcome.bind_eq_ok_iff.mp h
  obtain ⟨b₃, h₃, hok⟩ := Outcome.bind_eq_ok_iff.mp h
  obtain ⟨c₁, h₁', h'⟩ := Outcome.bind_eq_ok_iff.mp h'
  obtain ⟨c₂, h₂', h'⟩ := Outcome.bind_eq_ok_iff.mp h'
  obtain ⟨c₃, h₃', hok'⟩ := Outcome.bind_eq_ok_iff.mp h'
  cases hok
  cases hok'
  simp only [List.append_assoc] at heq
  obtain ⟨htype, heq⟩ := delimits_subjectType h₁ h₁' heq
  obtain ⟨hhash, heq⟩ := delimits_subjectInfoHash h₂ h₂' heq
  obtain ⟨hclaims, hs⟩ := selfDelimiting_writeVector delimits_claim neverEmpty_claim h₃ h₃' heq
  obtain ⟨t, hash, claims⟩ := entry
  obtain ⟨t', hash', claims'⟩ := entry'
  obtain rfl : t = t' := htype
  obtain rfl : hash = hash' := hhash
  obtain rfl : claims = claims' := hclaims
  exact ⟨rfl, hs⟩

namespace LogEntry

def entryType : LogEntry → UInt16
  | null => nullEntryType
  | certificate _ => tbsCertEntryType

/-- An entry starts with its type. -/
theorem tlsSerialize_eq_ok_iff {v : LogEntry} :
    tlsSerialize v = .ok b ↔ ∃ body, b = BigEndian.encode 2 v.entryType.toNat ++ body ∧
      match v with
      | null => body = []
      | certificate entry => tlsSerialize entry = .ok body := by
  cases v with
  | null =>
    constructor
    · intro h
      cases h
      exact ⟨[], rfl, rfl⟩
    · rintro ⟨_, rfl, rfl⟩
      rfl
  | certificate entry =>
    refine Outcome.bind_eq_ok_iff.trans ?_
    constructor
    · rintro ⟨_, hcode, h⟩
      obtain ⟨body, hbody, hok⟩ := Outcome.bind_eq_ok_iff.mp h
      cases hcode
      cases hok
      exact ⟨body, rfl, hbody⟩
    · rintro ⟨body, rfl, hbody⟩
      exact ⟨_, rfl, Outcome.bind_eq_ok_iff.mpr ⟨body, hbody, rfl⟩⟩

end LogEntry

theorem delimits_logEntry : Delimits LogEntry := by
  intro v v' b b' s s' h h' heq
  obtain ⟨body, rfl, hbody⟩ := LogEntry.tlsSerialize_eq_ok_iff.mp h
  obtain ⟨body', rfl, hbody'⟩ := LogEntry.tlsSerialize_eq_ok_iff.mp h'
  rw [List.append_assoc, List.append_assoc] at heq
  obtain ⟨hcode, hrest⟩ := List.append_inj heq (by simp)
  have htype := UInt16.toNat_inj.mp
    (BigEndian.encode_inj (UInt16.toNat_lt _) (UInt16.toNat_lt _) hcode)
  cases v with
  | null =>
    cases v' with
    | null =>
      obtain rfl : body = [] := hbody
      obtain rfl : body' = [] := hbody'
      exact ⟨rfl, hrest⟩
    | certificate entry => cases htype
  | certificate entry =>
    cases v' with
    | null => cases htype
    | certificate entry' =>
      obtain ⟨rfl, hs⟩ := delimits_tbsCertificateLogEntry hbody hbody' hrest
      exact ⟨rfl, hs⟩

/-- The digest has no collision among the byte strings of `S`. -/
def Hasher.CollisionFreeOn (H : Hasher) (S : Set (List UInt8)) : Prop :=
  ∀ parts parts', parts.flatten ∈ S → parts'.flatten ∈ S → H.digest parts = H.digest parts' →
    parts.flatten = parts'.flatten

/-- The byte string behind a leaf hash. -/
def leafInput (entry : List UInt8) : List UInt8 := leafPrefix :: entry

/-- The byte string behind a node hash. -/
def nodeInput (left right : HashOutput) : List UInt8 :=
  nodePrefix :: (left.asBytes ++ right.asBytes)

variable {H : Hasher} {S : Set (List UInt8)} {left right : HashOutput}

theorem flatten_leaf : [[leafPrefix], b].flatten = leafInput b := by simp [leafInput]

theorem flatten_node :
    [[nodePrefix], left.asBytes, right.asBytes].flatten = nodeInput left right := by
  simp [nodeInput]

theorem hashLeaf_inj (hcf : H.CollisionFreeOn S) (hb : leafInput b ∈ S) (hb' : leafInput b' ∈ S)
    (h : hashLeaf H b = hashLeaf H b') : b = b' := by
  have heq := hcf [[leafPrefix], b] [[leafPrefix], b'] (by rwa [flatten_leaf])
    (by rwa [flatten_leaf]) h
  rw [flatten_leaf, flatten_leaf] at heq
  exact (List.cons.inj heq).2

theorem hashLeaf_ne_hashNode (hcf : H.CollisionFreeOn S) (hb : leafInput b ∈ S)
    (hnode : nodeInput left right ∈ S) : hashLeaf H b ≠ hashNode H left right := by
  intro h
  have heq := hcf [[leafPrefix], b] [[nodePrefix], left.asBytes, right.asBytes]
    (by rwa [flatten_leaf]) (by rwa [flatten_node]) h
  rw [flatten_leaf, flatten_node] at heq
  exact absurd (List.cons.inj heq).1 (by decide)

theorem LogEntry.leafBytes_eq_ok_iff {v : LogEntry} {leaf : LeafBytes} :
    v.leafBytes = .ok leaf ↔ tlsSerialize v = .ok leaf.bytes := by
  refine Outcome.bind_eq_ok_iff.trans ?_
  constructor
  · rintro ⟨b, hb, hok⟩
    cases hok
    exact hb
  · intro h
    exact ⟨leaf.bytes, h, rfl⟩

theorem LogEntry.leafHash_eq_ok_iff {v : LogEntry} {hash : HashOutput} :
    v.leafHash H = .ok hash ↔ ∃ leaf, v.leafBytes = .ok leaf ∧ hashLeaf H leaf.bytes = hash := by
  refine Outcome.bind_eq_ok_iff.trans ?_
  simp

/-- The leaf bytes of two entries differ and neither starts with the other; and wherever the
digest has no collision, their leaf hashes differ and are no node hash. -/
theorem leaf_commitment_injective :
    (∀ (v v' : LogEntry) (leaf leaf' : LeafBytes), v ≠ v' → v.leafBytes = .ok leaf →
      v'.leafBytes = .ok leaf' → leaf.bytes ≠ leaf'.bytes ∧ ¬ leaf.bytes <+: leaf'.bytes ∧
        ¬ leaf'.bytes <+: leaf.bytes) ∧
    ∀ (H : Hasher) (S : Set (List UInt8)), H.CollisionFreeOn S →
      ∀ (v : LogEntry) (leaf : LeafBytes) (hash : HashOutput), v.leafBytes = .ok leaf →
        v.leafHash H = .ok hash → leafInput leaf.bytes ∈ S →
        (∀ (v' : LogEntry) (leaf' : LeafBytes) (hash' : HashOutput), v ≠ v' →
          v'.leafBytes = .ok leaf' → v'.leafHash H = .ok hash' → leafInput leaf'.bytes ∈ S →
          hash ≠ hash') ∧
        ∀ left right, nodeInput left right ∈ S → hash ≠ hashNode H left right := by
  have hdistinct : ∀ (v v' : LogEntry) (leaf leaf' : LeafBytes), v ≠ v' →
      v.leafBytes = .ok leaf → v'.leafBytes = .ok leaf' → ¬ leaf.bytes <+: leaf'.bytes := by
    intro v v' leaf leaf' hne h h'
    exact delimits_logEntry.not_prefix (LogEntry.leafBytes_eq_ok_iff.mp h)
      (LogEntry.leafBytes_eq_ok_iff.mp h') hne
  refine ⟨?_, ?_⟩
  · intro v v' leaf leaf' hne h h'
    have hpre := hdistinct v v' leaf leaf' hne h h'
    refine ⟨?_, hpre, hdistinct v' v leaf' leaf hne.symm h' h⟩
    intro heq
    exact hpre (heq ▸ List.prefix_refl _)
  · intro H S hcf v leaf hash h hhash hS
    obtain ⟨_, hleaf, rfl⟩ := LogEntry.leafHash_eq_ok_iff.mp hhash
    obtain rfl := Except.ok.inj (h.symm.trans hleaf)
    refine ⟨?_, ?_⟩
    · intro v' leaf' hash' hne h' hhash' hS'
      obtain ⟨_, hleaf', rfl⟩ := LogEntry.leafHash_eq_ok_iff.mp hhash'
      obtain rfl := Except.ok.inj (h'.symm.trans hleaf')
      intro heq
      have hbytes := hashLeaf_inj hcf hS hS' heq
      exact hdistinct v v' leaf leaf' hne h h' (hbytes ▸ List.prefix_refl _)
    · intro left right hnode
      exact hashLeaf_ne_hashNode hcf hS hnode

/-- The small hash reads its input as one byte string, so a finite check is enough. -/
theorem residueHasher_collisionFreeOn {l : List (List UInt8)}
    (h : ∀ p ∈ l, ∀ p' ∈ l, residueHasher.digest [p] = residueHasher.digest [p'] → p = p') :
    residueHasher.CollisionFreeOn {p | p ∈ l} := by
  have hflat : ∀ parts, residueHasher.digest parts = residueHasher.digest [parts.flatten] := by
    intro parts
    simp [residueHasher]
  intro parts parts' hp hp' heq
  rw [hflat parts, hflat parts'] at heq
  exact h _ hp _ hp' heq

theorem leaf_commitment_injective_ipv4 :
    ¬ [0, 0] <+: sampleEntryBytes ∧
      hashLeaf residueHasher [0, 0] ≠ hashLeaf residueHasher sampleEntryBytes := by
  have hnull : LogEntry.null.leafBytes = .ok ⟨[0, 0]⟩ := by decide
  have hsample : sampleEntry.leafBytes = .ok ⟨sampleEntryBytes⟩ := by decide +kernel
  refine ⟨?_, ?_⟩
  · exact (leaf_commitment_injective.1 .null sampleEntry _ _ (by decide) hnull hsample).2.1
  · have hcf := residueHasher_collisionFreeOn (l := [leafInput [0, 0], leafInput sampleEntryBytes])
      (by decide +kernel)
    exact (leaf_commitment_injective.2 residueHasher _ hcf .null _ _ hnull
      (LogEntry.leafHash_eq_ok_iff.mpr ⟨_, hnull, rfl⟩) (by simp)).1 sampleEntry _ _ (by decide)
      hsample (LogEntry.leafHash_eq_ok_iff.mpr ⟨_, hsample, rfl⟩) (by simp)

end Mtc
