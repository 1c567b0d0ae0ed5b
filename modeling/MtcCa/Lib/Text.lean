import Mathlib

/-! Cutting text into words and punctuation, and parsers of the pieces. Text that is put
together at separators is cut apart there again. -/
namespace Text

/-- A piece of text: a maximal run of word characters, or one other character. -/
inductive Token where
  | word (s : String)
  | punct (c : Char)
deriving DecidableEq

/-- Which characters make up words, and which others are skipped. -/
structure Alphabet where
  isWord : Char → Bool
  isBlank : Char → Bool

variable {A : Alphabet} {w u v : List Char} {c : Char} {a b s : String}

/-- The word collected so far, if there is one. -/
def flush (w : List Char) : List Token := if w.isEmpty then [] else [.word (String.ofList w)]

def separator (A : Alphabet) (c : Char) : List Token := if A.isBlank c then [] else [.punct c]

/-- Scans text behind the word collected so far. -/
def scan (A : Alphabet) : List Char → List Char → List Token
  | w, [] => flush w
  | w, c :: cs =>
    if A.isWord c then scan A (w ++ [c]) cs else flush w ++ (separator A c ++ scan A [] cs)

def lex (A : Alphabet) (s : String) : List Token := scan A [] s.toList

/-- A character that is not of a word ends what came before it. -/
theorem scan_append_cons (hc : A.isWord c = false) :
    scan A w (u ++ c :: v) = scan A w u ++ (separator A c ++ scan A [] v) := by
  induction u generalizing w with
  | nil => simp [scan, hc]
  | cons d u ih =>
    rw [List.cons_append, scan, scan]
    split
    · exact ih
    · rw [ih, List.append_assoc, List.append_assoc]

theorem scan_words (hu : ∀ c ∈ u, A.isWord c = true) : scan A w u = flush (w ++ u) := by
  induction u generalizing w with
  | nil => rw [scan, List.append_nil]
  | cons c u ih =>
    rw [scan, if_pos (hu c (List.mem_cons_self ..)),
      ih (fun d hd => hu d (List.mem_cons_of_mem _ hd)), List.append_assoc, List.singleton_append]

/-- A nonempty text of word characters is one word. -/
theorem lex_word (hs : s.toList ≠ []) (h : ∀ c ∈ s.toList, A.isWord c = true) :
    lex A s = [.word s] := by
  rw [lex, scan_words h, List.nil_append, flush, if_neg (by simpa using hs), String.ofList_toList]

/-- The text has a separator at its start, or at its end. -/
def StartsApart (A : Alphabet) (s : String) : Prop := ∃ c ∈ s.toList.head?, A.isWord c = false

def EndsApart (A : Alphabet) (s : String) : Prop := ∃ c ∈ s.toList.getLast?, A.isWord c = false

theorem lex_append_of_startsApart (hb : StartsApart A b) : lex A (a ++ b) = lex A a ++ lex A b := by
  obtain ⟨c, hc, hword⟩ := hb
  obtain ⟨cs, hcs⟩ := List.head?_eq_some_iff.mp hc
  rw [lex, lex, lex, String.toList_append, hcs, scan_append_cons hword]
  simp [scan, hword, flush]

theorem lex_append_of_endsApart (ha : EndsApart A a) : lex A (a ++ b) = lex A a ++ lex A b := by
  obtain ⟨c, hc, hword⟩ := ha
  obtain ⟨cs, hcs⟩ := List.getLast?_eq_some_iff.mp hc
  rw [lex, lex, lex, String.toList_append, hcs, List.append_assoc, List.singleton_append,
    scan_append_cons hword, scan_append_cons hword, List.append_assoc, List.append_assoc]
  simp [scan, flush]

theorem StartsApart.append (ha : StartsApart A a) : StartsApart A (a ++ b) := by
  obtain ⟨c, hc, hword⟩ := ha
  obtain ⟨cs, hcs⟩ := List.head?_eq_some_iff.mp hc
  exact ⟨c, by simp [String.toList_append, hcs], hword⟩

theorem EndsApart.append (hb : EndsApart A b) : EndsApart A (a ++ b) := by
  obtain ⟨c, hc, hword⟩ := hb
  obtain ⟨cs, hcs⟩ := List.getLast?_eq_some_iff.mp hc
  exact ⟨c, by simp [String.toList_append, hcs], hword⟩

/-- The texts with the separator between them. -/
def join (sep : String) : List String → String
  | [] => ""
  | [a] => a
  | a :: b :: l => a ++ sep ++ join sep (b :: l)

/-- The pieces with the separator between them. -/
def joined (sep : Token) : List (List Token) → List Token
  | [] => []
  | [ts] => ts
  | ts :: us :: l => ts ++ sep :: joined sep (us :: l)

theorem joined_append_singleton {sep : Token} {tss : List (List Token)} {ts : List Token}
    (h : tss ≠ []) : joined sep (tss ++ [ts]) = joined sep tss ++ sep :: ts := by
  fun_induction joined sep tss with
  | case1 => exact absurd rfl h
  | case2 us => rfl
  | case3 us vs l ih =>
    have hcons : joined sep (us :: vs :: l ++ [ts]) =
        us ++ sep :: joined sep (vs :: l ++ [ts]) := rfl
    rw [hcons, ih (by simp), List.append_assoc, List.cons_append]

theorem lex_join {sep : String} {t : Token} {l : List String} (hsep : lex A sep = [t])
    (hstart : StartsApart A sep) (hend : EndsApart A sep) :
    lex A (join sep l) = joined t (l.map (lex A)) := by
  fun_induction join sep l with
  | case1 => rfl
  | case2 a => rfl
  | case3 a b l ih =>
    have hapart : lex A (a ++ sep ++ join sep (b :: l)) =
        lex A a ++ (lex A sep ++ lex A (join sep (b :: l))) := by
      rw [String.append_assoc, ← lex_append_of_endsApart hend,
        lex_append_of_startsApart hstart.append]
    rw [hapart, hsep, ih]
    rfl

theorem join_cons {sep : String} {l : List String} (hl : l ≠ []) :
    join sep (a :: l) = a ++ sep ++ join sep l := by
  cases l with
  | nil => exact absurd rfl hl
  | cons b l => rfl

/-- Joining a joined text in front of others is joining its parts there. -/
theorem join_join_cons {sep : String} {l m : List String} (hl : l ≠ []) :
    join sep (join sep l :: m) = join sep (l ++ m) := by
  cases m with
  | nil => rw [List.append_nil, join]
  | cons b m =>
    rw [join_cons (by simp)]
    induction l with
    | nil => exact absurd rfl hl
    | cons a l ih =>
      cases l with
      | nil => rfl
      | cons a' l =>
        have hleft : join sep (a :: a' :: l) = a ++ sep ++ join sep (a' :: l) := rfl
        have hright : join sep (a :: a' :: l ++ b :: m) =
            a ++ sep ++ join sep (a' :: l ++ b :: m) := rfl
        rw [hleft, hright, ← ih (by simp)]
        simp only [String.append_assoc]

/-- Between two separators a text is cut apart at both. -/
theorem lex_append_append {sep : String} (hstart : StartsApart A sep) (hend : EndsApart A sep) :
    lex A (a ++ sep ++ b) = lex A a ++ lex A sep ++ lex A b := by
  rw [lex_append_of_endsApart hend.append, lex_append_of_startsApart hstart]

/-- A text around another is cut apart at its inner ends. -/
theorem lex_around {left right : String} (hleft : EndsApart A left) (hright : StartsApart A right) :
    lex A (left ++ a ++ right) = lex A left ++ lex A a ++ lex A right := by
  rw [lex_append_of_startsApart hright, lex_append_of_endsApart hleft]

/-- A parser takes pieces off the front. -/
abbrev Parser (α : Type*) := List Token → Option (α × List Token)

variable {α : Type*} {item : Parser α} {t : Token} {ts rest : List Token}

def expect (t : Token) : Parser Unit
  | [] => none
  | u :: ts => if u = t then some ((), ts) else none

@[simp] theorem expect_cons : expect t (t :: ts) = some ((), ts) := if_pos rfl

/-- One or more items with a separator between them, at most `n`. -/
def sepBy (sep : Token) (item : Parser α) : ℕ → Parser (List α)
  | 0, _ => none
  | n + 1, ts => do
    let (x, ts) ← item ts
    match expect sep ts with
    | none => some ([x], ts)
    | some (_, ts) => do
      let (xs, ts) ← sepBy sep item n ts
      some (x :: xs, ts)

theorem le_length_joined {sep : Token} {tss : List (List Token)} (h : ∀ ts ∈ tss, ts ≠ []) :
    tss.length ≤ (joined sep tss).length := by
  fun_induction joined sep tss with
  | case1 => simp
  | case2 ts =>
    exact List.length_pos_iff.mpr (h ts (List.mem_singleton_self _))
  | case3 ts us l ih =>
    have := ih (fun ts hts => h ts (List.mem_cons_of_mem _ hts))
    simp only [List.length_cons, List.length_append] at this ⊢
    omega

/-- Joined items are parsed one by one, when each is parsed in front of a separator and of
what follows the last. -/
theorem sepBy_joined {P : List Token → Prop} {sep : Token} {tss : List (List Token)}
    {xs : List α} {n : ℕ} (hsep : ∀ ts, P (sep :: ts)) (hrest : P rest)
    (hend : expect sep rest = none)
    (hitems : List.Forall₂ (fun ts x => ∀ rest, P rest → item (ts ++ rest) = some (x, rest))
      tss xs)
    (hxs : xs ≠ []) (hn : xs.length ≤ n) :
    sepBy sep item n (joined sep tss ++ rest) = some (xs, rest) := by
  induction hitems generalizing n with
  | nil => exact absurd rfl hxs
  | @cons ts x tss xs hitem hrests ih =>
    cases n with
    | zero => simp at hn
    | succ n =>
      cases hrests with
      | nil => simp [joined, sepBy, hitem rest hrest, hend]
      | @cons us y tss xs hnext hrests =>
        have hmore := ih (n := n) (by simp) (by simpa using hn)
        simp only [joined, List.append_assoc, List.cons_append, sepBy]
        rw [hitem _ (hsep _)]
        simp [hmore]

end Text
