import MtcCa.Acme.Account

/-! A thumbprint names one key: the canonical text of a key is read back to it, and a public key
has one encoding. -/
namespace Acme

variable {L : Libraries} {jwk jwk' : Jwk} {s s' : String} {c d : Char} {r r' : List Char}
variable {key : L.VerifyingKey}

/-- What the code relies on of the libraries: SHA-256 does not collide on canonical keys, base64url
has one text for every byte string and accepts no other, a P-256 key has one pair of
coordinates, and ES256 accepts only what the key's holder signed. -/
structure Assumptions (L : Libraries) (signed : L.VerifyingKey → String → Prop) : Prop where
  sha256_collisionFree : ∀ jwk jwk' : Jwk, L.sha256 jwk.canonical = L.sha256 jwk'.canonical →
    jwk.canonical = jwk'.canonical
  encodeBase64_injective : Function.Injective L.encodeBase64
  decodeBase64_canonical : ∀ s bytes, L.decodeBase64 s = some bytes → L.encodeBase64 bytes = s
  coordinates_unique : ∀ x y x' y' key, L.fromAffineCoordinates x y = some key →
    L.fromAffineCoordinates x' y' = some key → x = x' ∧ y = y'
  es256_sound : ∀ key text signature, L.verify key text signature → signed key text

def hexValue (c : Char) : ℕ := if c.toNat < 58 then c.toNat - 48 else c.toNat - 87

/-- Reads one character back from inside a JSON string. -/
def readJson : List Char → Option (Char × List Char)
  | '\\' :: 'u' :: '0' :: '0' :: h :: l :: r => some (Char.ofNat (16 * hexValue h + hexValue l), r)
  | '\\' :: 'b' :: r => some ('\x08', r)
  | '\\' :: 'f' :: r => some ('\x0c', r)
  | '\\' :: 'n' :: r => some ('\n', r)
  | '\\' :: 'r' :: r => some ('\r', r)
  | '\\' :: 't' :: r => some ('\t', r)
  | '\\' :: c :: r => some (c, r)
  | '"' :: _ => none
  | c :: r => some (c, r)
  | [] => none

theorem hexValue_digitChar : ∀ n < 16, hexValue (Nat.digitChar n) = n := by decide

theorem readJson_escapeJson : readJson (escapeJson c ++ r) = some (c, r) := by
  unfold escapeJson
  split_ifs with hquote hslash hb hf hn hr ht hcontrol
  · rw [hquote]
    rfl
  · rw [hslash]
    rfl
  · rw [hb]
    rfl
  · rw [hf]
    rfl
  · rw [hn]
    rfl
  · rw [hr]
    rfl
  · rw [ht]
    rfl
  · change some (Char.ofNat (16 * hexValue (Nat.digitChar (c.toNat / 16)) +
      hexValue (Nat.digitChar (c.toNat % 16))), r) = _
    rw [hexValue_digitChar _ (by omega), hexValue_digitChar _ (by omega), Nat.div_add_mod,
      Char.ofNat_toNat]
  · change readJson (c :: r) = _
    unfold readJson
    split <;> simp_all

/-- One escaped character ends where it is read to its end. -/
theorem escapeJson_append_inj (h : escapeJson c ++ r = escapeJson d ++ r') : c = d ∧ r = r' := by
  have hread := congrArg readJson h
  rw [readJson_escapeJson, readJson_escapeJson] at hread
  cases hread
  exact ⟨rfl, rfl⟩

/-- No escaped character begins with the closing quote. -/
theorem escapeJson_append_ne : escapeJson c ++ r ≠ '"' :: r' := by
  intro h
  have hread := congrArg readJson h
  rw [readJson_escapeJson] at hread
  cases hread

theorem flatMap_escapeJson_inj : ∀ {a b : List Char},
    a.flatMap escapeJson ++ '"' :: r = b.flatMap escapeJson ++ '"' :: r' → a = b ∧ r = r' := by
  intro a
  induction a with
  | nil =>
    intro b h
    cases b with
    | nil => exact ⟨rfl, (List.cons.inj h).2⟩
    | cons d b =>
      rw [List.flatMap_cons, List.append_assoc] at h
      exact absurd h.symm escapeJson_append_ne
  | cons c a ih =>
    intro b h
    cases b with
    | nil =>
      rw [List.flatMap_cons, List.append_assoc] at h
      exact absurd h escapeJson_append_ne
    | cons d b =>
      rw [List.flatMap_cons, List.flatMap_cons, List.append_assoc, List.append_assoc] at h
      obtain ⟨rfl, hrest⟩ := escapeJson_append_inj h
      obtain ⟨rfl, rfl⟩ := ih hrest
      exact ⟨rfl, rfl⟩

/-- A JSON string ends at its closing quote. -/
theorem jsonString_append_inj (h : jsonString s ++ r = jsonString s' ++ r') : s = s' ∧ r = r' := by
  have hquoted : s.toList.flatMap escapeJson ++ '"' :: r =
      s'.toList.flatMap escapeJson ++ '"' :: r' := by
    simpa [jsonString] using h
  obtain ⟨hs, hr⟩ := flatMap_escapeJson_inj hquoted
  exact ⟨String.toList_injective hs, hr⟩

/-- The canonical text of a key determines it. -/
theorem Jwk.canonical_injective : Function.Injective Jwk.canonical := by
  intro jwk jwk' h
  have hcrv := List.append_cancel_left (String.ofList_injective h)
  obtain ⟨hcrv, h⟩ := jsonString_append_inj hcrv
  obtain ⟨hkty, h⟩ := jsonString_append_inj (List.append_cancel_left h)
  obtain ⟨hx, h⟩ := jsonString_append_inj (List.append_cancel_left h)
  obtain ⟨hy, -⟩ := jsonString_append_inj (List.append_cancel_left h)
  cases jwk
  cases jwk'
  simp_all

section

variable {signed : L.VerifyingKey → String → Prop} (hL : Assumptions L signed)
include hL

/-- Keys with one thumbprint are one key. -/
theorem Assumptions.thumbprint_injective (h : jwk.thumbprint L = jwk'.thumbprint L) :
    jwk = jwk' := by
  have hdigest := hL.encodeBase64_injective (JwkThumbprint.mk.inj h)
  exact Jwk.canonical_injective (hL.sha256_collisionFree _ _ hdigest)

/-- A coordinate has one text. -/
theorem Assumptions.coordinate_unique {name : String} {bytes : List UInt8}
    (h : Jwk.decodeCoordinate L name s = .ok bytes)
    (h' : Jwk.decodeCoordinate L name s' = .ok bytes) : s = s' := by
  have hdecode : ∀ {text}, Jwk.decodeCoordinate L name text = .ok bytes →
      L.decodeBase64 text = some bytes := by
    intro text htext
    unfold Jwk.decodeCoordinate at htext
    split at htext
    · cases htext
    · next heq =>
      split at htext
      · cases htext
        exact heq
      · cases htext
  exact (hL.decodeBase64_canonical _ _ (hdecode h)).symm.trans
    (hL.decodeBase64_canonical _ _ (hdecode h'))

omit hL in
theorem Jwk.verifyingKey_eq_ok (h : jwk.verifyingKey L = .ok key) :
    jwk.kty = "EC" ∧ jwk.crv = "P-256" ∧ ∃ x y, Jwk.decodeCoordinate L "x" jwk.x = .ok x ∧
      Jwk.decodeCoordinate L "y" jwk.y = .ok y ∧ L.fromAffineCoordinates x y = some key := by
  unfold Jwk.verifyingKey at h
  obtain ⟨hkty, h⟩ := Outcome.ite_error_eq_ok_iff.mp h
  obtain ⟨hcrv, h⟩ := Outcome.ite_error_eq_ok_iff.mp h
  obtain ⟨x, hx, h⟩ := Outcome.bind_eq_ok_iff.mp h
  obtain ⟨y, hy, h⟩ := Outcome.bind_eq_ok_iff.mp h
  refine ⟨not_not.mp hkty, not_not.mp hcrv, x, y, hx, hy, ?_⟩
  split at h
  · next heq =>
    cases h
    exact heq
  · cases h

/-- A public key travels in one form only. -/
theorem Assumptions.jwk_unique (h : jwk.verifyingKey L = .ok key)
    (h' : jwk'.verifyingKey L = .ok key) : jwk = jwk' := by
  obtain ⟨hkty, hcrv, x, y, hx, hy, hkey⟩ := Jwk.verifyingKey_eq_ok h
  obtain ⟨hkty', hcrv', x', y', hx', hy', hkey'⟩ := Jwk.verifyingKey_eq_ok h'
  obtain ⟨rfl, rfl⟩ := hL.coordinates_unique _ _ _ _ _ hkey hkey'
  have hxs := hL.coordinate_unique hx hx'
  have hys := hL.coordinate_unique hy hy'
  cases jwk
  cases jwk'
  simp_all

end

end Acme
