import MtcCa.Acme.Server

/-! What the registry holds is decided by the issues and presentations so far. -/
namespace Acme

open Cloud (SystemTime)

variable {log : List Event} {n m : Nonce}
variable {nonces : NonceStore} {clock now d t₀ t₁ : SystemTime} {ttl : UInt64} {i : ℕ} {b : Bool}

/-- The event is an issue of `n`. -/
def Event.issues (n : Nonce) : Event → Bool
  | .issued m _ => m = n
  | .presented .. => false

/-- `n` was issued at `t₀` and has not been presented since; the log has the latest first. -/
def Outstanding (log : List Event) (n : Nonce) (t₀ : SystemTime) : Prop :=
  ∃ later earlier, log = later ++ .issued n t₀ :: earlier ∧ ∀ i t b, .presented i n t b ∉ later

/-- `n` was presented at some time after its issue. -/
def Spent (log : List Event) (n : Nonce) : Prop :=
  ∃ later earlier i t b, log = later ++ .presented i n t b :: earlier ∧
    ∃ t₀, .issued n t₀ ∈ earlier

/-- `n` was never issued, has been presented already or has expired. -/
def Unspendable (ttl : UInt64) (log : List Event) (n : Nonce) (now : SystemTime) : Prop :=
  (∀ t₀, .issued n t₀ ∉ log) ∨ Spent log n ∨ ∃ t₀, .issued n t₀ ∈ log ∧ addMillis t₀ ttl < now

/-- Every nonce check passed exactly when its nonce was outstanding and in time. -/
def Judged (ttl : UInt64) : List Event → Prop
  | [] => True
  | .issued _ _ :: log => Judged ttl log
  | .presented _ n now b :: log =>
    (b = true ↔ ∃ t₀, Outstanding log n t₀ ∧ t₀ ≤ now ∧ now ≤ addMillis t₀ ttl) ∧ Judged ttl log

/-- The registry, the clock and the log belong together. -/
structure Chronicle (nonces : NonceStore) (clock : SystemTime) (log : List Event) : Prop where
  past : ∀ n t₀, .issued n t₀ ∈ log → t₀ ≤ clock
  once : ∀ n, log.countP (Event.issues n) ≤ 1
  registered : ∀ n d, nonces.issued.get? n = some d →
    ∃ t₀, Outstanding log n t₀ ∧ d = addMillis t₀ nonces.ttlMillis
  kept : ∀ n t₀, Outstanding log n t₀ → clock ≤ addMillis t₀ nonces.ttlMillis →
    nonces.issued.get? n = some (addMillis t₀ nonces.ttlMillis)
  judged : Judged nonces.ttlMillis log

theorem Outstanding.issued_mem (h : Outstanding log n t₀) : .issued n t₀ ∈ log := by
  obtain ⟨later, earlier, rfl, -⟩ := h
  exact List.mem_append_right _ (List.mem_cons_self ..)

theorem not_outstanding_nil : ¬ Outstanding [] n t₀ := by
  intro h
  cases h.issued_mem

theorem outstanding_cons_issued : Outstanding (.issued m t₁ :: log) n t₀ ↔
    (n = m ∧ t₀ = t₁) ∨ Outstanding log n t₀ := by
  constructor
  · rintro ⟨later, earlier, hlog, hlater⟩
    cases later with
    | nil =>
      obtain ⟨he, -⟩ := List.cons.inj hlog
      cases he
      exact .inl ⟨rfl, rfl⟩
    | cons e later =>
      obtain ⟨-, rfl⟩ := List.cons.inj hlog
      exact .inr ⟨later, earlier, rfl, fun i t b hmem => hlater i t b (List.mem_cons_of_mem _ hmem)⟩
  · rintro (⟨rfl, rfl⟩ | ⟨later, earlier, rfl, hlater⟩)
    · exact ⟨[], log, rfl, fun _ _ _ h => nomatch h⟩
    · refine ⟨.issued m t₁ :: later, earlier, rfl, fun i t b hmem => ?_⟩
      rcases List.mem_cons.mp hmem with h | h
      · cases h
      · exact hlater i t b h

theorem outstanding_cons_presented : Outstanding (.presented i m t₁ b :: log) n t₀ ↔
    n ≠ m ∧ Outstanding log n t₀ := by
  constructor
  · rintro ⟨later, earlier, hlog, hlater⟩
    cases later with
    | nil => cases (List.cons.inj hlog).1
    | cons e later =>
      obtain ⟨rfl, rfl⟩ := List.cons.inj hlog
      refine ⟨?_, later, earlier, rfl, fun i t b h => hlater i t b (List.mem_cons_of_mem _ h)⟩
      rintro rfl
      exact hlater _ _ _ (List.mem_cons_self ..)
  · rintro ⟨hne, later, earlier, rfl, hlater⟩
    refine ⟨.presented i m t₁ b :: later, earlier, rfl, fun i t b hmem => ?_⟩
    rcases List.mem_cons.mp hmem with h | h
    · cases h
      exact hne rfl
    · exact hlater i t b h

/-- What is outstanding over a presentation was issued after it. -/
theorem outstanding_append_presented {later earlier : List Event} :
    Outstanding (later ++ .presented i n t₁ b :: earlier) n t₀ → Outstanding later n t₀ := by
  induction later with
  | nil =>
    intro h
    exact absurd rfl (outstanding_cons_presented.mp h).1
  | cons e later ih =>
    intro h
    cases e with
    | issued k t =>
      rcases outstanding_cons_issued.mp h with h | h
      · exact outstanding_cons_issued.mpr (.inl h)
      · exact outstanding_cons_issued.mpr (.inr (ih h))
    | presented k m' t b' =>
      obtain ⟨hne, h⟩ := outstanding_cons_presented.mp h
      exact outstanding_cons_presented.mpr ⟨hne, ih h⟩

theorem countP_issues_pos : 0 < log.countP (Event.issues n) ↔ ∃ t₀, .issued n t₀ ∈ log := by
  rw [List.countP_pos_iff]
  constructor
  · rintro ⟨e, he, hn⟩
    cases e with
    | issued k t =>
      obtain rfl : k = n := of_decide_eq_true hn
      exact ⟨t, he⟩
    | presented => cases hn
  · rintro ⟨t₀, h⟩
    exact ⟨_, h, decide_eq_true rfl⟩

/-- Of what a list has at most once, there is only one. -/
theorem eq_of_countP_le_one {α : Type*} {p : α → Bool} {l : List α} {x y : α}
    (h : l.countP p ≤ 1) (hx : x ∈ l) (hy : y ∈ l) (hpx : p x) (hpy : p y) : x = y := by
  have hxl := List.mem_filter.mpr ⟨hx, hpx⟩
  have hyl := List.mem_filter.mpr ⟨hy, hpy⟩
  rw [List.countP_eq_length_filter] at h
  match hl : l.filter p with
  | [] =>
    rw [hl] at hxl
    cases hxl
  | [z] =>
    rw [hl] at hxl hyl
    exact (List.mem_singleton.mp hxl).trans (List.mem_singleton.mp hyl).symm
  | z :: z' :: rest =>
    rw [hl] at h
    simp at h

/-- Of a nonce issued once there is one issue time. -/
theorem issued_unique (h : log.countP (Event.issues n) ≤ 1) (h₀ : .issued n t₀ ∈ log)
    (h₁ : .issued n t₁ ∈ log) : t₀ = t₁ := by
  have heq := eq_of_countP_le_one h h₀ h₁ (by simp [Event.issues]) (by simp [Event.issues])
  cases heq
  rfl

/-- A nonce that cannot be spent is not outstanding in time. -/
theorem Unspendable.not_outstanding (h : Unspendable ttl log n now)
    (honce : log.countP (Event.issues n) ≤ 1) (hout : Outstanding log n t₀) :
    ¬ now ≤ addMillis t₀ ttl := by
  rcases h with hnever | ⟨later, earlier, i, t, b, rfl, t₁, hissued⟩ | ⟨t₁, hissued, hlate⟩
  · exact absurd hout.issued_mem (hnever _)
  · -- one issue before the presentation and one after it are two
    have hlater := countP_issues_pos.mpr ⟨_, (outstanding_append_presented hout).issued_mem⟩
    have hearlier := countP_issues_pos.mpr ⟨_, hissued⟩
    rw [List.countP_append, List.countP_cons] at honce
    omega
  · obtain rfl := issued_unique honce hout.issued_mem hissued
    exact not_le.mpr hlate

/-- Every judgement of the log was right when it was made. -/
theorem Judged.of_mem (h : Judged ttl log) (hmem : .presented i n now b ∈ log) :
    ∃ earlier, .presented i n now b :: earlier <:+ log ∧
      (b = true ↔ ∃ t₀, Outstanding earlier n t₀ ∧ t₀ ≤ now ∧ now ≤ addMillis t₀ ttl) := by
  induction log with
  | nil => cases hmem
  | cons e log ih =>
    rcases List.mem_cons.mp hmem with rfl | hmem
    · exact ⟨log, List.suffix_refl _, h.1⟩
    · have hrest : Judged ttl log := by
        cases e with
        | issued => exact h
        | presented => exact h.2
      obtain ⟨earlier, hsuffix, hb⟩ := ih hrest hmem
      exact ⟨earlier, hsuffix.trans (List.suffix_cons ..), hb⟩

/-- The event is a passed check of `n`. -/
def Event.passes (n : Nonce) : Event → Bool
  | .issued .. => false
  | .presented _ m _ b => b && m = n

open Classical in
/-- Every passed check uses up an issue, and so does a nonce still outstanding. -/
theorem Judged.countP_passes_le (h : Judged ttl log) :
    log.countP (Event.passes n) + (if ∃ t₀, Outstanding log n t₀ then 1 else 0) ≤
      log.countP (Event.issues n) := by
  induction log with
  | nil => simp [not_outstanding_nil]
  | cons e log ih =>
    rw [List.countP_cons, List.countP_cons]
    cases e with
    | issued m t =>
      have hih := ih h
      by_cases hm : m = n
      · have : (if ∃ t₀, Outstanding (.issued m t :: log) n t₀ then 1 else 0) ≤ 1 := by
          split <;> omega
        simp only [Event.passes, Event.issues, hm, decide_true, if_true]
        simp only [hm] at this
        split at hih <;> simp_all <;> omega
      · have hiff : (∃ t₀, Outstanding (.issued m t :: log) n t₀) ↔ ∃ t₀, Outstanding log n t₀ := by
          simp [outstanding_cons_issued, Ne.symm hm]
        simp only [Event.passes, Event.issues, hm, hiff, decide_false]
        simpa using hih
    | presented i m t b =>
      obtain ⟨hb, h⟩ := h
      have hih := ih h
      by_cases hm : m = n
      · subst hm
        have hnot : ¬ ∃ t₀, Outstanding (.presented i m t b :: log) m t₀ := by
          simp [outstanding_cons_presented]
        rw [if_neg hnot]
        cases b with
        | false =>
          simp only [Event.passes, Event.issues, Bool.false_and]
          simp
          omega
        | true =>
          obtain ⟨t₀, hout, -⟩ := hb.mp rfl
          rw [if_pos ⟨t₀, hout⟩] at hih
          simpa [Event.passes, Event.issues] using hih
      · have hiff : (∃ t₀, Outstanding (.presented i m t b :: log) n t₀) ↔
            ∃ t₀, Outstanding log n t₀ := by
          simp [outstanding_cons_presented, Ne.symm hm]
        simp only [Event.passes, Event.issues, hm, hiff, decide_false, Bool.and_false]
        simpa using hih

theorem chronicle_start : Chronicle (.new ttl) clock [] where
  past := by
    intro n t₀ h
    cases h
  once := by
    intro n
    exact Nat.zero_le _
  registered := by
    intro n d h
    rw [NonceStore.new, FiniteMap.get?_empty] at h
    cases h
  kept := by
    intro n t₀ h
    exact absurd h not_outstanding_nil
  judged := trivial

theorem Chronicle.issue (h : Chronicle nonces clock log) (hclock : clock ≤ now)
    (hfresh : ¬ ∃ t₀, .issued m t₀ ∈ log) :
    Chronicle (nonces.issue now (.ok m)).2 now (.issued m now :: log) where
  past := by
    intro n t₀ hmem
    rcases List.mem_cons.mp hmem with he | hmem
    · cases he
      exact le_rfl
    · exact (h.past n t₀ hmem).trans hclock
  once := by
    intro n
    rw [List.countP_cons]
    by_cases hm : m = n
    · subst hm
      have hzero : log.countP (Event.issues m) = 0 :=
        Nat.eq_zero_of_not_pos (fun hpos => hfresh (countP_issues_pos.mp hpos))
      rw [hzero]
      split <;> omega
    · have := h.once n
      simpa [Event.issues, hm] using this
  registered := by
    intro n d hget
    rw [NonceStore.get?_issue_ok] at hget
    rw [NonceStore.ttlMillis_issue]
    split at hget
    · next hn => exact ⟨now, outstanding_cons_issued.mpr (.inl ⟨hn, rfl⟩), hget⟩
    · obtain ⟨t₀, hout, hd⟩ := h.registered n d hget.1
      exact ⟨t₀, outstanding_cons_issued.mpr (.inr hout), hd⟩
  kept := by
    intro n t₀ hout hle
    rw [NonceStore.ttlMillis_issue] at hle ⊢
    rw [NonceStore.get?_issue_ok]
    rcases outstanding_cons_issued.mp hout with ⟨rfl, rfl⟩ | hold
    · rw [if_pos rfl]
    · have hne : n ≠ m := by
        rintro rfl
        exact hfresh ⟨t₀, hold.issued_mem⟩
      rw [if_neg hne]
      exact ⟨h.kept n t₀ hold (hclock.trans hle), hle⟩
  judged := by
    rw [NonceStore.ttlMillis_issue]
    exact h.judged

/-- A failing generator has still pruned the registry. -/
theorem Chronicle.issue_error {e : String} (h : Chronicle nonces clock log)
    (hclock : clock ≤ now) : Chronicle (nonces.issue now (.error e)).2 now log where
  past := by
    intro n t₀ hmem
    exact (h.past n t₀ hmem).trans hclock
  once := h.once
  registered := by
    intro n d hget
    rw [NonceStore.get?_issue_error] at hget
    rw [NonceStore.ttlMillis_issue]
    exact h.registered n d hget.1
  kept := by
    intro n t₀ hout hle
    rw [NonceStore.ttlMillis_issue] at hle ⊢
    rw [NonceStore.get?_issue_error]
    exact ⟨h.kept n t₀ hout (hclock.trans hle), hle⟩
  judged := by
    rw [NonceStore.ttlMillis_issue]
    exact h.judged

/-- The nonce check passes exactly for an outstanding nonce in time. -/
theorem Chronicle.consume_ok_iff (h : Chronicle nonces clock log) (hclock : clock ≤ now) :
    (nonces.consume n now).1 = .ok () ↔
      ∃ t₀, Outstanding log n t₀ ∧ t₀ ≤ now ∧ now ≤ addMillis t₀ nonces.ttlMillis := by
  rw [NonceStore.consume_fst]
  constructor
  · rintro ⟨d, hget, hle⟩
    obtain ⟨t₀, hout, rfl⟩ := h.registered n d hget
    exact ⟨t₀, hout, (h.past n t₀ hout.issued_mem).trans hclock, hle⟩
  · rintro ⟨t₀, hout, -, hle⟩
    exact ⟨_, h.kept n t₀ hout (hclock.trans hle), hle⟩

theorem Chronicle.consume (h : Chronicle nonces clock log) (hclock : clock ≤ now)
    (hb : b = true ↔ (nonces.consume n now).1 = .ok ()) :
    Chronicle (nonces.consume n now).2 now (.presented i n now b :: log) where
  past := by
    intro m t₀ hmem
    rcases List.mem_cons.mp hmem with he | hmem
    · cases he
    · exact (h.past m t₀ hmem).trans hclock
  once := by
    intro m
    rw [List.countP_cons]
    simpa [Event.issues] using h.once m
  registered := by
    intro m d hget
    rw [NonceStore.consume_snd, FiniteMap.get?_erase] at hget
    rw [NonceStore.ttlMillis_consume]
    split at hget
    · cases hget
    · next hne =>
      obtain ⟨t₀, hout, hd⟩ := h.registered m d hget
      exact ⟨t₀, outstanding_cons_presented.mpr ⟨hne, hout⟩, hd⟩
  kept := by
    intro m t₀ hout hle
    obtain ⟨hne, hout⟩ := outstanding_cons_presented.mp hout
    rw [NonceStore.ttlMillis_consume] at hle ⊢
    rw [NonceStore.consume_snd]
    exact (FiniteMap.get?_erase_ne hne).trans (h.kept m t₀ hout (hclock.trans hle))
  judged := by
    rw [NonceStore.ttlMillis_consume]
    exact ⟨hb.trans (h.consume_ok_iff hclock), h.judged⟩

end Acme
