import ArenaLisp.Proofs.Cutting

/-!
# Phrases

The grammar sees a text only through its tokens. `Scans` cuts the head of a text into tokens, and
`Phrase` says which rows of tokens are rows of items, without any text. A row of items at the head
of a text is one of each. So what has to do with bytes is shown of `Scans`, one token at a time, and
what has to do with nesting is shown of `Phrase`.

A token does not depend on what is behind the text that was looked at: what follows the last token
can be taken away. And it can be replaced by anything that does not go on with the token, which is
anything that begins with no token byte, or, behind a comment, with a newline.
-/

namespace ArenaLisp

open Text Token

/-! ## Tokens -/

theorem Longest.of_append {L : Bytes → Prop} {a lexeme r z : Bytes}
    (h : Longest L (a ++ z) lexeme (r ++ z)) : Longest L a lexeme r := by
  have hcut : a = lexeme ++ r := by
    have hcut := h.cut
    rw [← List.append_assoc] at hcut
    exact List.append_cancel_right hcut
  exact ⟨hcut, h.mem, fun other hother => h.longest other (hother.trans (List.prefix_append a z))⟩

namespace Token

/-- A token is the same without what is behind the text that follows it. -/
theorem Lexes.of_append {a r z : Bytes} {t : Token} (h : Lexes (a ++ z) t (r ++ z)) :
    Lexes a t r := by
  have hmark : ∀ (body : Bytes) {b : UInt8}, a ++ z = b :: (body ++ (r ++ z)) →
      a = b :: (body ++ r) := by
    intro body b heq
    rw [← List.append_assoc, ← List.cons_append] at heq
    exact List.append_cancel_right heq
  generalize hs : a ++ z = s at h
  generalize hrest : r ++ z = rest at h
  cases h with
  | @comment body _ hbody hnewline =>
      subst hrest
      rw [hmark body hs]
      refine .comment hbody fun b hb => hnewline b ?_
      cases r with
      | nil => cases hb
      | cons c r => exact hb
  | opening =>
      subst hrest
      rw [hmark [] hs]
      exact .opening
  | closing =>
      subst hrest
      rw [hmark [] hs]
      exact .closing
  | quote =>
      subst hrest
      rw [hmark [] hs]
      exact .quote
  | number hn hl =>
      subst hs hrest
      exact .number hn hl.of_append
  | symbol hnone hname hl =>
      subst hs hrest
      refine .symbol (fun lexeme hp => hnone lexeme ?_) hname hl.of_append
      exact hp.trans (List.prefix_append a z)

theorem Next.of_append {a r z : Bytes} {t : Token} (h : Next (a ++ z) t (r ++ z)) : Next a t r := by
  obtain ⟨layout, s, hs, hlayout, h⟩ := h
  obtain ⟨lexeme, rfl⟩ : r ++ z <:+ s := Next.suffix ⟨[], s, rfl, by simp, h⟩
  rw [← List.append_assoc] at h
  have hcut : a ++ z = layout ++ (lexeme ++ r) ++ z := by
    rw [hs, List.append_assoc, List.append_assoc]
  exact ⟨layout, lexeme ++ r, List.append_cancel_right hcut, hlayout, h.of_append⟩

theorem Next.append {a r z : Bytes} {t : Token} (h : Next a t r)
    (hz : ∀ x ∈ z.head?, isTokenByte x = false)
    (hcomment : t = .comment → r = [] → ∀ x ∈ z.head?, x = newline) : Next (a ++ z) t (r ++ z) := by
  obtain ⟨layout, s, rfl, hlayout, h⟩ := h
  exact ⟨layout, s ++ z, List.append_assoc .., hlayout, h.append hz hcomment⟩

/-- Layout in front of a text does not change its first token. -/
theorem next_layout_append {l s rest : Bytes} {t : Token} (hl : ∀ b ∈ l, isLayout b = true) :
    Next (l ++ s) t rest ↔ Next s t rest := by
  rw [next_iff, next_iff, skipLayout, List.dropWhile_append_of_pos hl, skipLayout]

theorem Next.unique {s rest rest' : Bytes} {t t' : Token} (h : Next s t rest)
    (h' : Next s t' rest') : t = t' ∧ rest = rest' := by
  have heq := (scan?_eq_some.mpr h).symm.trans (scan?_eq_some.mpr h')
  cases heq
  exact ⟨rfl, rfl⟩

end Token

/-! ## Rows of tokens -/

/-- The head of a text is cut into tokens, with what is behind them. -/
inductive Scans : Bytes → List Token → Bytes → Prop where
  | nil {s : Bytes} : Scans s [] s
  | cons {s s₁ rest : Bytes} {t : Token} {ts : List Token} : Next s t s₁ → Scans s₁ ts rest →
      Scans s (t :: ts) rest

namespace Scans

variable {a r s m rest z : Bytes} {t : Token} {ts us xs : List Token}

theorem append (h : Scans s ts m) (h' : Scans m us rest) : Scans s (ts ++ us) rest := by
  induction h with
  | nil => exact h'
  | cons hs _ ih => exact .cons hs (ih h')

theorem split (h : Scans s (ts ++ us) rest) : ∃ m, Scans s ts m ∧ Scans m us rest := by
  induction ts generalizing s with
  | nil => exact ⟨s, .nil, h⟩
  | cons t ts ih =>
      cases h with
      | cons hs h =>
          obtain ⟨m, hts, hus⟩ := ih h
          exact ⟨m, .cons hs hts, hus⟩

theorem suffix (h : Scans s ts rest) : rest <:+ s := by
  induction h with
  | nil => exact List.suffix_refl _
  | cons hs _ ih => exact ih.trans hs.suffix

theorem nil_iff : Scans s [] rest ↔ s = rest := by
  constructor
  · intro h
    cases h
    rfl
  · rintro rfl
    exact .nil

/-- Nothing is cut off an empty text. -/
theorem eq_nil (h : Scans [] ts rest) : ts = [] := by
  cases h with
  | nil => rfl
  | cons hs _ =>
      have hlen := scan?_length (scan?_eq_some.mpr hs)
      exact absurd hlen (Nat.not_lt_zero _)

/-- **What is behind the tokens can be taken away.** -/
theorem of_append (h : Scans s ts rest) : ∀ {a r}, s = a ++ z → rest = r ++ z → Scans a ts r := by
  induction h with
  | nil =>
      intro a r hs hrest
      exact nil_iff.mpr (List.append_cancel_right (hs.symm.trans hrest))
  | cons hs h ih =>
      rintro a r rfl rfl
      obtain ⟨lexemes, rfl⟩ := h.suffix
      rw [← List.append_assoc] at hs
      exact .cons hs.of_append (ih (List.append_assoc ..).symm rfl)

/-- **And it can be replaced by what does not go on with the last token.** -/
theorem append_stop (h : Scans a ts r) (hz : ∀ x ∈ z.head?, isTokenByte x = false)
    (hcomment : ts.getLast? = some .comment → r = [] → ∀ x ∈ z.head?, x = newline) :
    Scans (a ++ z) ts (r ++ z) := by
  induction h with
  | nil => exact .nil
  | @cons s s₁ rest t ts hs h ih =>
      refine .cons (hs.append hz fun ht hs₁ => ?_) (ih fun hlast hrest => ?_)
      · -- a comment with nothing behind it is the last token
        subst ht hs₁
        obtain rfl := h.eq_nil
        exact hcomment rfl (nil_iff.mp h).symm
      · refine hcomment ?_ hrest
        cases ts with
        | nil => cases hlast
        | cons t' ts => rw [List.getLast?_cons_cons, hlast]

/-- Layout in front of a text does not change its tokens. -/
theorem layout_append {l l' : Bytes} (hl : ∀ b ∈ l, isLayout b = true)
    (hl' : ∀ b ∈ l', isLayout b = true) (h : Scans (l ++ s) (t :: ts) rest) :
    Scans (l' ++ s) (t :: ts) rest := by
  cases h with
  | cons hs h => exact .cons ((next_layout_append hl').mpr ((next_layout_append hl).mp hs)) h

/-- Behind a comment there is a newline, or nothing. -/
theorem newline_of_comment (h : Scans s ts rest) (hlast : ts.getLast? = some .comment) :
    ∀ x ∈ rest.head?, x = newline := by
  induction h with
  | nil => cases hlast
  | @cons s s₁ rest t ts hs h ih =>
      cases ts with
      | nil =>
          cases hlast
          obtain rfl := nil_iff.mp h
          obtain ⟨_, _, _, _, hlexes⟩ := hs
          cases hlexes with
          | comment _ hrest => exact hrest
      | cons t' ts => exact ih (by rwa [List.getLast?_cons_cons] at hlast)

/-- Where no more tokens begin, the tokens before are all there are. -/
theorem exists_append (h : Scans s xs m) (hall : Scans s ts rest) (hend : scan? rest = none) :
    ∃ ys, ts = xs ++ ys ∧ Scans m ys rest := by
  induction h generalizing ts with
  | nil => exact ⟨ts, rfl, hall⟩
  | cons hs _ ih =>
      cases hall with
      | nil =>
          rw [scan?_eq_some.mpr hs] at hend
          cases hend
      | cons hs' hall =>
          obtain ⟨rfl, rfl⟩ := hs.unique hs'
          obtain ⟨ys, rfl, hys⟩ := ih hall
          exact ⟨ys, rfl, hys⟩

end Scans

/-! ## Rows of items -/

/-- A row of tokens that is a row of items; comments have no tree. -/
inductive Phrase : List Token → List (Option Tree) → Prop where
  | nil : Phrase [] []
  | comment {ts : List Token} {vs : List (Option Tree)} : Phrase ts vs →
      Phrase (.comment :: ts) (none :: vs)
  | number {n : Numeral} {ts : List Token} {vs : List (Option Tree)} : n.InRange → Phrase ts vs →
      Phrase (.number n :: ts) (some (.number n.number) :: vs)
  | symbol {name : String} {ts : List Token} {vs : List (Option Tree)} : Phrase ts vs →
      Phrase (.symbol name :: ts) (some (.atom name) :: vs)
  | list {inner ts : List Token} {us vs : List (Option Tree)} : Phrase inner us → Phrase ts vs →
      Phrase (.opening :: (inner ++ .closing :: ts)) (some (.ofList us.reduceOption) :: vs)
  | quote {one ts : List Token} {t : Tree} {vs : List (Option Tree)} : Phrase one [some t] →
      Phrase ts vs → Phrase (.quote :: (one ++ ts)) (some t.quote :: vs)

theorem Phrase.append {ts us : List Token} {vs ws : List (Option Tree)} (h : Phrase ts vs)
    (h' : Phrase us ws) : Phrase (ts ++ us) (vs ++ ws) := by
  induction h with
  | nil => exact h'
  | comment _ ih => exact .comment ih
  | number hr _ ih => exact .number hr ih
  | symbol _ ih => exact .symbol ih
  | list hinner _ _ ih =>
      rw [List.cons_append, List.append_assoc, List.cons_append]
      exact .list hinner ih
  | quote hone _ _ ih =>
      rw [List.cons_append, List.append_assoc]
      exact .quote hone ih

theorem Row.phrase {s rest : Bytes} {vs : List (Option Tree)} (h : Row s vs rest) :
    ∃ ts, Scans s ts rest ∧ Phrase ts vs := by
  induction h with
  | nil => exact ⟨[], .nil, .nil⟩
  | comment hs _ ih =>
      obtain ⟨ts, hts, hvs⟩ := ih
      exact ⟨_, .cons hs hts, .comment hvs⟩
  | number hs hr _ ih =>
      obtain ⟨ts, hts, hvs⟩ := ih
      exact ⟨_, .cons hs hts, .number hr hvs⟩
  | symbol hs _ ih =>
      obtain ⟨ts, hts, hvs⟩ := ih
      exact ⟨_, .cons hs hts, .symbol hvs⟩
  | list hs _ hclose _ ihinner ih =>
      obtain ⟨inner, hinner, hus⟩ := ihinner
      obtain ⟨ts, hts, hvs⟩ := ih
      exact ⟨_, .cons hs (hinner.append (.cons hclose hts)), .list hus hvs⟩
  | quote hs _ _ ihone ih =>
      obtain ⟨one, hone, ht⟩ := ihone
      obtain ⟨ts, hts, hvs⟩ := ih
      exact ⟨_, .cons hs (hone.append hts), .quote ht hvs⟩

theorem Phrase.row {ts : List Token} {vs : List (Option Tree)} (h : Phrase ts vs) :
    ∀ {s rest : Bytes}, Scans s ts rest → Row s vs rest := by
  induction h with
  | nil =>
      intro s rest hs
      rw [Scans.nil_iff.mp hs]
      exact .nil
  | comment _ ih =>
      intro s rest hs
      cases hs with
      | cons hs hts => exact .comment hs (ih hts)
  | number hr _ ih =>
      intro s rest hs
      cases hs with
      | cons hs hts => exact .number hs hr (ih hts)
  | symbol _ ih =>
      intro s rest hs
      cases hs with
      | cons hs hts => exact .symbol hs (ih hts)
  | list _ _ ihinner ih =>
      intro s rest hs
      cases hs with
      | cons hs hts =>
          obtain ⟨m, hinner, hts⟩ := hts.split
          cases hts with
          | cons hclose hts => exact .list hs (ihinner hinner) hclose (ih hts)
  | quote _ _ ihone ih =>
      intro s rest hs
      cases hs with
      | cons hs hts =>
          obtain ⟨m, hone, hts⟩ := hts.split
          exact .quote hs (ihone hone) (ih hts)

/-- **A row of items is a row of tokens, cut from a text.** -/
theorem row_iff {s rest : Bytes} {vs : List (Option Tree)} :
    Row s vs rest ↔ ∃ ts, Scans s ts rest ∧ Phrase ts vs :=
  ⟨Row.phrase, fun ⟨_, hts, hvs⟩ => hvs.row hts⟩

end ArenaLisp
