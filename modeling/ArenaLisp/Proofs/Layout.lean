import ArenaLisp.Proofs.Phrases
import Mathlib.Data.List.Chain

/-!
# Layout and comments

Between two tokens there is room: a space or a line end put there changes nothing, and a comment is
one more token, which the grammar drops. For the bytes, what was put in must not go on with the
token in front of it. Only a comment is gone on with, up to its newline, and then what was put in
belongs to it or begins with that newline. For the grammar, a comment may stand before and behind
every item, and so everywhere in a list and at the top. What a quote mark applies to begins right
behind it: there, and there only, a comment is one too many.
-/

namespace ArenaLisp

open Text Token

/-! ## Putting bytes between tokens -/

/-- A blank byte takes no part in the longer blanks. -/
theorem Text.isBlank_cons {x : UInt8} (hx : isBlankByte x = true) (s : Bytes) :
    isBlank (x :: s) = isBlank s := by
  have hpair : ∀ b, isBlankPair x b = false := by
    intro b
    rw [isBlankPair, Bool.and_eq_false_iff, beq_eq_false_iff_ne]
    left
    rintro rfl
    exact absurd hx (by decide)
  have htriple : ∀ b c, isBlankTriple x b c = false := by
    intro b c
    have hne : ∀ y, isBlankByte y = false → (x == y) = false := by
      intro y hy
      rw [beq_eq_false_iff_ne]
      rintro rfl
      rw [hx] at hy
      cases hy
    simp [isBlankTriple, hne 0xe1 (by decide), hne 0xe2 (by decide), hne 0xe3 (by decide)]
  rcases s with _ | ⟨b, _ | ⟨c, s⟩⟩ <;> simp [isBlank, hx, hpair, htriple]

theorem Text.isBlank_layout_append {l : Bytes} (hl : ∀ b ∈ l, isLayout b = true) (s : Bytes) :
    isBlank (l ++ s) = isBlank s := by
  induction l with
  | nil => rfl
  | cons x l ih =>
      obtain ⟨hx, hl⟩ := List.forall_mem_cons.mp hl
      rw [List.cons_append, isBlank_cons (isBlankByte_layout hx), ih hl]

namespace Scans

variable {p z z' w g after rest : Bytes} {xs ys : List Token}

theorem replace (h : Scans (p ++ z) xs z) (hz' : ∀ x ∈ z'.head?, isTokenByte x = false)
    (hcomment : xs.getLast? = some .comment → ∀ x ∈ z'.head?, x = newline) :
    Scans (p ++ z') xs z' :=
  (h.of_append rfl (List.nil_append z).symm).append_stop hz' fun hlast _ => hcomment hlast

/-- **A comment takes what is put behind it, up to the newline.** -/
theorem absorb (h : Scans (p ++ z) xs z) (hlast : xs.getLast? = some .comment)
    (hw : ∀ b ∈ w, b ≠ newline) (hz' : ∀ x ∈ z'.head?, x = newline) :
    Scans (p ++ (w ++ z')) xs z' := by
  obtain ⟨ys, rfl⟩ := List.getLast?_eq_some_iff.mp hlast
  obtain ⟨m, hys, hcomment⟩ := h.split
  cases hcomment with
  | cons hs hnil =>
      rw [nil_iff.mp hnil] at hs
      obtain ⟨layout, s, rfl, hlayout, hlexes⟩ := hs
      cases hlexes with
      | @comment body _ hbody _ =>
          obtain ⟨u, hu⟩ := hys.suffix
          have hp : p = u ++ (layout ++ commentByte :: body) := by
            have hpz : p ++ z = u ++ (layout ++ commentByte :: body) ++ z := by simp [← hu]
            exact List.append_cancel_right hpz
          have hnew : p ++ (w ++ z') = u ++ (layout ++ commentByte :: (body ++ w ++ z')) := by
            simp [hp]
          have hbodyw : ∀ b ∈ body ++ w, b ≠ newline := fun b hb =>
            (List.mem_append.mp hb).elim (hbody b) (hw b)
          -- what is in front of the comment still has the same byte behind it
          have hhead : (layout ++ commentByte :: (body ++ w ++ z')).head? =
              (layout ++ commentByte :: (body ++ z)).head? := by
            cases layout <;> rfl
          rw [hnew]
          rw [← hu] at hys
          refine (hys.replace (fun x hx => ?_) fun hys' x hx => ?_).append
            (.cons ⟨layout, _, rfl, hlayout, .comment hbodyw hz'⟩ .nil)
          · cases layout with
            | nil =>
                cases hx
                decide
            | cons y layout =>
                cases hx
                exact isTokenByte_layout (hlayout x List.mem_cons_self)
          · exact hys.newline_of_comment hys' x (hhead ▸ hx)

/-- Behind the last token and its gap, anything may be put that does not go on with the token. -/
theorem insert {new : Bytes} (h : Scans (p ++ (g ++ after)) xs (g ++ after))
    (hg : ∀ b ∈ g, isLayout b = true) (hnew : ∃ x ∈ new.head?, isTokenByte x = false)
    (hopen : xs.getLast? = some .comment → g ≠ []) :
    Scans (p ++ (g ++ (new ++ after))) xs (g ++ (new ++ after)) := by
  obtain ⟨x, hx, htoken⟩ := hnew
  obtain _ | ⟨_, new⟩ := new
  · cases hx
  cases hx
  cases g with
  | nil =>
      refine h.replace (fun y hy => ?_) fun hlast => absurd rfl (hopen hlast)
      cases hy
      exact htoken
  | cons b g =>
      refine h.replace (fun y hy => ?_) fun hlast y hy => h.newline_of_comment hlast y hy
      cases hy
      exact isTokenByte_layout (hg b List.mem_cons_self)

/-- Layout between tokens leaves them, and only makes the gap longer. -/
theorem insert_layout {l : Bytes} (h : Scans (p ++ (g ++ after)) xs (g ++ after))
    (hg : ∀ b ∈ g, isLayout b = true) (hl : ∀ b ∈ l, isLayout b = true) :
    ∃ gap, (∀ b ∈ gap, isLayout b = true) ∧ Scans (p ++ (g ++ (l ++ after))) xs (gap ++ after) := by
  by_cases hopen : xs.getLast? = some .comment ∧ g = []
  · obtain ⟨hlast, rfl⟩ := hopen
    have hw : ∀ b ∈ l.takeWhile (· != newline), b ≠ newline := fun b hb => by
      simpa using List.mem_takeWhile_imp hb
    have hz : ∀ b ∈ (l.dropWhile (· != newline) ++ after).head?, b = newline := by
      have hhead := List.head?_dropWhile_not (· != newline) l
      cases hdrop : l.dropWhile (· != newline) with
      | nil => exact h.newline_of_comment hlast
      | cons x m =>
          rw [hdrop] at hhead
          intro b hb
          cases hb
          simpa using hhead
    have habsorb := h.absorb hlast hw hz
    rw [← List.append_assoc (l.takeWhile _), List.takeWhile_append_dropWhile] at habsorb
    exact ⟨_, fun b hb => hl b (List.dropWhile_subset _ hb), habsorb⟩
  · cases l with
    | nil => exact ⟨g, hg, h⟩
    | cons x l =>
        refine ⟨g ++ x :: l, fun b hb => (List.mem_append.mp hb).elim (hg b) (hl b), ?_⟩
        rw [List.append_assoc]
        refine h.insert hg ⟨x, rfl, isTokenByte_layout (hl x List.mem_cons_self)⟩ ?_
        exact fun hlast hnil => hopen ⟨hlast, hnil⟩

/-- A comment between tokens is one more token, or it is put at the end of another comment. -/
theorem insert_comment {body : Bytes} (h : Scans (p ++ (g ++ after)) xs (g ++ after))
    (hg : ∀ b ∈ g, isLayout b = true) (hbody : newline ∉ body) :
    xs.getLast? = some .comment ∧
        Scans (p ++ (g ++ (commentByte :: body ++ [newline] ++ after))) xs ([newline] ++ after) ∨
      Scans (p ++ (g ++ (commentByte :: body ++ [newline] ++ after))) (xs ++ [.comment])
        ([newline] ++ after) := by
  have hbytes : ∀ b ∈ body, b ≠ newline := fun b hb hnewline => hbody (hnewline ▸ hb)
  by_cases hopen : xs.getLast? = some .comment ∧ g = []
  · obtain ⟨hlast, rfl⟩ := hopen
    refine Or.inl ⟨hlast, ?_⟩
    rw [List.append_assoc (commentByte :: body)]
    refine h.absorb hlast (List.forall_mem_cons.mpr ⟨by decide, hbytes⟩) fun x hx => ?_
    cases hx
    rfl
  · refine Or.inr ((h.insert hg ⟨commentByte, rfl, by decide⟩ ?_).append (.cons ?_ .nil))
    · exact fun hlast hnil => hopen ⟨hlast, hnil⟩
    · refine ⟨g, _, rfl, hg, ?_⟩
      rw [List.append_assoc]
      refine .comment hbytes fun x hx => ?_
      cases hx
      rfl

/-- A gap of another length is as good, before more tokens and at the end of the text. -/
theorem change_gap {g' : Bytes} (h : Scans (g ++ after) ys rest) (hrest : isBlank rest = true)
    (hg : ∀ b ∈ g, isLayout b = true) (hg' : ∀ b ∈ g', isLayout b = true) :
    ∃ rest', Scans (g' ++ after) ys rest' ∧ isBlank rest' = true := by
  cases ys with
  | nil =>
      obtain rfl := nil_iff.mp h
      refine ⟨_, .nil, ?_⟩
      rwa [isBlank_layout_append hg', ← isBlank_layout_append hg]
  | cons y ys => exact ⟨rest, h.layout_append hg hg', hrest⟩

end Scans

/-! ## Comments between the tokens of items -/

namespace Phrase

variable {ts us xs ys : List Token} {vs ws : List (Option Tree)}

/-- A row of tokens in two parts: each is a row of items, or a comment may stand between them. -/
def Parts (xs ys : List Token) (vs : List (Option Tree)) : Prop :=
  (∃ vs₁ vs₂, vs = vs₁ ++ vs₂ ∧ Phrase xs vs₁ ∧ Phrase ys vs₂) ∨ Phrase (xs ++ .comment :: ys) vs

theorem Parts.start (h : Phrase ts vs) : Parts [] ts vs := Or.inl ⟨[], vs, rfl, .nil, h⟩

theorem Parts.append_left (hus : Phrase us ws) (h : Parts xs ys vs) :
    Parts (us ++ xs) ys (ws ++ vs) := by
  rcases h with ⟨vs₁, vs₂, rfl, hxs, hys⟩ | h
  · exact Or.inl ⟨ws ++ vs₁, vs₂, (List.append_assoc ..).symm, hus.append hxs, hys⟩
  · refine Or.inr ?_
    rw [List.append_assoc]
    exact hus.append h

/-- Either way a comment may be put between the parts, and the data are the same. -/
theorem Parts.comment (h : Parts xs ys vs) :
    ∃ vs', Phrase (xs ++ .comment :: ys) vs' ∧ vs'.reduceOption = vs.reduceOption := by
  rcases h with ⟨vs₁, vs₂, rfl, hxs, hys⟩ | h
  · refine ⟨vs₁ ++ none :: vs₂, hxs.append (.comment hys), ?_⟩
    rw [List.reduceOption_append, List.reduceOption_append, List.reduceOption_cons_of_none]
  · exact ⟨vs, h, rfl⟩

/-- Whether a row of tokens may be parted everywhere but behind a quote mark. -/
def HasRoom (ts : List Token) (vs : List (Option Tree)) : Prop :=
  ∀ xs ys, ts = xs ++ ys → (∀ us, xs ≠ us ++ [.quote]) → Parts xs ys vs

namespace HasRoom

/-- Behind an item that is one token. -/
theorem cons {t : Token} {v : Option Tree} (ht : Phrase [t] [v]) (hts : Phrase ts vs)
    (h : HasRoom ts vs) : HasRoom (t :: ts) (v :: vs) := by
  intro xs ys heq hquote
  rcases List.cons_eq_append_iff.mp heq with ⟨rfl, rfl⟩ | ⟨xs, rfl, hcut⟩
  · exact .start (ht.append hts)
  · exact .append_left ht (h xs ys hcut fun us hus => hquote (t :: us) (congrArg _ hus))

/-- In a list, and behind it. -/
theorem list {inner : List Token} (hinner : Phrase inner ws) (hts : Phrase ts vs)
    (hroom : HasRoom inner ws) (h : HasRoom ts vs) :
    HasRoom (.opening :: (inner ++ .closing :: ts)) (some (.ofList ws.reduceOption) :: vs) := by
  intro xs ys heq hquote
  -- within the list a comment may also stand before and behind each item
  have hwithin : ∀ {xs c}, inner = xs ++ c → (∀ us, .opening :: xs ≠ us ++ [.quote]) →
      Parts (.opening :: xs) (c ++ .closing :: ts) (some (.ofList ws.reduceOption) :: vs) := by
    intro xs c hc hquote
    obtain ⟨ws', hws', hdata⟩ :=
      (hroom xs c hc fun us hus => hquote (.opening :: us) (congrArg _ hus)).comment
    have hlist := Phrase.list hws' hts
    rw [hdata] at hlist
    exact Or.inr (by simpa using hlist)
  rcases List.cons_eq_append_iff.mp heq with ⟨rfl, rfl⟩ | ⟨xs, rfl, hcut⟩
  · exact .start (.list hinner hts)
  rcases List.append_eq_append_iff.mp hcut with ⟨a, rfl, ha⟩ | ⟨c, hc, rfl⟩
  · rcases List.cons_eq_append_iff.mp ha with ⟨rfl, rfl⟩ | ⟨a, rfl, hts'⟩
    · simpa using hwithin (List.append_nil _).symm (by simpa using hquote)
    · have hparts : Parts a ys vs := h a ys hts' fun us hus =>
        hquote (.opening :: (inner ++ .closing :: us)) (by simp [hus])
      simpa using hparts.append_left (Phrase.list hinner .nil)
  · exact hwithin hc hquote

/-- In what is quoted, and behind it. -/
theorem quote {one : List Token} {t : Tree} (hone : Phrase one [some t]) (hts : Phrase ts vs)
    (hroom : HasRoom one [some t]) (h : HasRoom ts vs) :
    HasRoom (.quote :: (one ++ ts)) (some t.quote :: vs) := by
  intro xs ys heq hquote
  rcases List.cons_eq_append_iff.mp heq with ⟨rfl, rfl⟩ | ⟨xs, rfl, hcut⟩
  · exact .start (.quote hone hts)
  have hend : ∀ us, xs ≠ us ++ [.quote] := fun us hus => hquote (.quote :: us) (congrArg _ hus)
  have hbehind : ∀ a, xs = one ++ a → ts = a ++ ys →
      Parts (.quote :: xs) ys (some t.quote :: vs) := by
    rintro a rfl ha
    have hparts : Parts a ys vs := h a ys ha fun us hus => hend (one ++ us) (by simp [hus])
    simpa using hparts.append_left (Phrase.quote hone .nil)
  rcases List.append_eq_append_iff.mp hcut with ⟨a, ha, hts'⟩ | ⟨c, hc, rfl⟩
  · exact hbehind a ha hts'
  rcases hroom xs c hc hend with ⟨vs₁, vs₂, hvs, hfirst, hsecond⟩ | hinside
  · -- what is quoted is one item, and so one of the parts has none
    rcases List.append_eq_singleton_iff.mp hvs.symm with ⟨rfl, -⟩ | ⟨-, rfl⟩
    · cases hfirst
      exact absurd rfl (hquote [])
    · cases hsecond
      exact hbehind [] (by simpa using hc.symm) rfl
  · exact Or.inr (by simpa using Phrase.quote hinside hts)

end HasRoom

/-- **There is room for a comment everywhere but behind a quote mark.** -/
theorem hasRoom (h : Phrase ts vs) : HasRoom ts vs := by
  induction h with
  | nil =>
      intro xs ys heq _
      obtain ⟨rfl, rfl⟩ := List.append_eq_nil_iff.mp heq.symm
      exact .start .nil
  | comment hts ih => exact .cons (.comment .nil) hts ih
  | number hr hts ih => exact .cons (.number hr .nil) hts ih
  | symbol hts ih => exact .cons (.symbol .nil) hts ih
  | list hinner hts ihinner ih => exact .list hinner hts ihinner ih
  | quote hone hts ihone ih => exact .quote hone hts ihone ih

/-- Whether a token may stand behind another. -/
def Follows (t u : Token) : Prop := t = .quote → u ≠ .comment

/-- **No comment stands behind a quote mark**, also where the row ends. -/
theorem chain_append (h : Phrase ts vs) : ∀ {us}, us.IsChain Follows →
    (ts ++ us).IsChain Follows := by
  have hcons : ∀ {t : Token} {ts}, t ≠ .quote → ts.IsChain Follows → (t :: ts).IsChain Follows :=
    fun ht hts => List.isChain_cons.mpr ⟨fun _ _ heq => absurd heq ht, hts⟩
  induction h with
  | nil => exact id
  | comment _ ih => exact fun hus => hcons (by simp) (ih hus)
  | number _ _ ih => exact fun hus => hcons (by simp) (ih hus)
  | symbol _ ih => exact fun hus => hcons (by simp) (ih hus)
  | list _ _ ihinner ih =>
      intro us hus
      rw [List.cons_append, List.append_assoc, List.cons_append]
      exact hcons (by simp) (ihinner (hcons (by simp) (ih hus)))
  | quote hone _ ihone ih =>
      intro us hus
      rw [List.cons_append, List.append_assoc]
      refine List.isChain_cons.mpr ⟨fun u hu _ => ?_, ihone (ih hus)⟩
      rintro rfl
      cases hone <;> cases hu

end Phrase

/-! ## Boundaries -/

/--
A place in a text that is no place in a token, `last` being the token in front of it, if there is
one: `before` and `after` are the text on its two sides.
-/
inductive Boundary (text : Bytes) : (before after : Bytes) → (last : Option Token) → Prop where
  | first {gap after : Bytes} : (∀ b ∈ gap, isLayout b = true) → text = gap ++ after →
      Boundary text gap after none
  | behind {before gap after : Bytes} {t : Token} : (t, gap ++ after) ∈ Token.all text →
      (∀ b ∈ gap, isLayout b = true) → text = before ++ after → Boundary text before after (some t)

/-- The tokens of a text are cut from it, one behind the other. -/
theorem Scans.of_mem_all {s rest : Bytes} {t : Token} (h : (t, rest) ∈ Token.all s) :
    ∃ ts, Scans s (ts ++ [t]) rest := by
  fun_induction Token.all s with
  | case1 s _ => cases h
  | case2 s u m hscan ih =>
      rcases List.mem_cons.mp h with heq | h
      · cases heq
        exact ⟨[], .cons (scan?_eq_some.mp hscan) .nil⟩
      · obtain ⟨ts, hts⟩ := ih h
        exact ⟨u :: ts, .cons (scan?_eq_some.mp hscan) hts⟩

theorem Boundary.scans {text before after : Bytes} {last : Option Token}
    (h : Boundary text before after last) : ∃ xs p gap, before = p ++ gap ∧
      (∀ b ∈ gap, isLayout b = true) ∧ xs.getLast? = last ∧ text = p ++ (gap ++ after) ∧
      Scans (p ++ (gap ++ after)) xs (gap ++ after) := by
  cases h with
  | first hgap htext => exact ⟨[], [], before, rfl, hgap, rfl, htext, .nil⟩
  | behind hmem hgap htext =>
      rename_i gap t
      obtain ⟨ts, hts⟩ := Scans.of_mem_all hmem
      obtain ⟨p, hp⟩ := hts.suffix
      refine ⟨ts ++ [t], p, gap, ?_, hgap, by simp, hp.symm, hp ▸ hts⟩
      rw [htext, ← List.append_assoc] at hp
      exact (List.append_cancel_right hp).symm

theorem readData_of_scans {text rest : Bytes} {ts : List Token} {vs : List (Option Tree)}
    (hts : Scans text ts rest) (hvs : Phrase ts vs) (hrest : isBlank rest = true) :
    readData text = .ok vs.reduceOption :=
  readData_iff_row.mpr ⟨vs, rest, row_iff.mpr ⟨ts, hts, hvs⟩, hrest, rfl⟩

theorem scans_of_readData {text : Bytes} {trees : List Tree} (h : readData text = .ok trees) :
    ∃ ts vs rest, Scans text ts rest ∧ Phrase ts vs ∧ isBlank rest = true ∧
      trees = vs.reduceOption := by
  obtain ⟨vs, rest, hrow, hrest, rfl⟩ := readData_iff_row.mp h
  obtain ⟨ts, hts, hvs⟩ := row_iff.mp hrow
  exact ⟨ts, vs, rest, hts, hvs, hrest, rfl⟩

/--
**Layout and comments between tokens do not matter.** Put into a text that is read, before, between
or behind its tokens, layout leaves what is read, and so does a comment with its newline. Only right
behind a quote mark a comment is an error.
-/
theorem readData_insert {text before after : Bytes} {last : Option Token} {trees : List Tree}
    (h : readData text = .ok trees) (hb : Boundary text before after last) :
    (∀ layout, (∀ b ∈ layout, isLayout b = true) →
      readData (before ++ layout ++ after) = .ok trees) ∧
    ∀ body, newline ∉ body →
      (last ≠ some .quote →
        readData (before ++ (commentByte :: body ++ [newline]) ++ after) = .ok trees) ∧
      (last = some .quote →
        ∃ e, readData (before ++ (commentByte :: body ++ [newline]) ++ after) = .error e) := by
  obtain ⟨xs, p, gap, rfl, hgap, rfl, rfl, hxs⟩ := hb.scans
  obtain ⟨ts, vs, rest, hts, hvs, hrest, rfl⟩ := scans_of_readData h
  obtain ⟨ys, rfl, hys⟩ := hxs.exists_append hts (scan?_of_blank hrest)
  have hnewline : ∀ b ∈ [newline], isLayout b = true := List.forall_mem_singleton.mpr rfl
  refine ⟨fun layout hlayout => ?_, fun body hbody => ⟨fun hlast => ?_, fun hlast => ?_⟩⟩
  · obtain ⟨gap', hgap', hfront⟩ := hxs.insert_layout hgap hlayout
    obtain ⟨rest', hback, hrest'⟩ := hys.change_gap hrest hgap hgap'
    rw [List.append_assoc, List.append_assoc]
    exact readData_of_scans (hfront.append hback) hvs hrest'
  · obtain ⟨rest', hback, hrest'⟩ := hys.change_gap hrest hgap hnewline
    rw [List.append_assoc, List.append_assoc]
    rcases hxs.insert_comment hgap hbody with ⟨-, hfront⟩ | hfront
    · exact readData_of_scans (hfront.append hback) hvs hrest'
    · have hparts := hvs.hasRoom xs ys rfl fun us hus =>
        hlast (List.getLast?_eq_some_iff.mpr ⟨us, hus⟩)
      obtain ⟨vs', hvs', hdata⟩ := hparts.comment
      rw [← hdata]
      rw [List.append_cons] at hvs'
      exact readData_of_scans (hfront.append hback) hvs' hrest'
  · rw [List.append_assoc, List.append_assoc]
    rcases hxs.insert_comment hgap hbody with ⟨hcomment, -⟩ | hfront
    · rw [hlast] at hcomment
      cases hcomment
    obtain ⟨us, rfl⟩ := List.getLast?_eq_some_iff.mp hlast
    cases hnew : readData (p ++ (gap ++ (commentByte :: body ++ [newline] ++ after))) with
    | error e => exact ⟨e, rfl⟩
    | ok trees' =>
        obtain ⟨ts', vs', rest', hts', hvs', hrest', -⟩ := scans_of_readData hnew
        obtain ⟨zs, rfl, -⟩ := hfront.exists_append hts' (scan?_of_blank hrest')
        have hchain := hvs'.chain_append .nil
        simp [List.isChain_append, Phrase.Follows] at hchain

/-- A numeral and a symbol with nothing between them are parted, a comment is made longer, and a
quote mark is parted from its datum. -/
theorem readData_insert_parted :
    readData (bytes "('x;y\n1)2e") = .ok [.ofList [Tree.quote (.atom "x"), .number (.int 1)],
      .number (.int 2), .atom "e"] ∧
    readData (bytes "('x;y\n1)2" ++ bytes "\t\r" ++ bytes "e") = readData (bytes "('x;y\n1)2e") ∧
    readData (bytes "('x;y" ++ (commentByte :: bytes ")'(" ++ [newline]) ++ bytes "\n1)2e") =
      readData (bytes "('x;y\n1)2e") ∧
    ∃ e, readData (bytes "('" ++ (commentByte :: bytes ")'(" ++ [newline]) ++ bytes "x;y\n1)2e") =
      .error e := by
  have hread : readData (bytes "('x;y\n1)2e") = .ok [.ofList [Tree.quote (.atom "x"),
      .number (.int 1)], .number (.int 2), .atom "e"] := by decide +kernel
  have hnumber : Boundary (bytes "('x;y\n1)2e") (bytes "('x;y\n1)2") (bytes "e")
      (some (.number ⟨none, bytes "2", none, none⟩)) :=
    .behind (by decide +kernel) (List.forall_mem_nil _) (by decide +kernel)
  have hcomment : Boundary (bytes "('x;y\n1)2e") (bytes "('x;y") (bytes "\n1)2e") (some .comment) :=
    .behind (by decide +kernel) (List.forall_mem_nil _) (by decide +kernel)
  have hquote : Boundary (bytes "('x;y\n1)2e") (bytes "('") (bytes "x;y\n1)2e") (some .quote) :=
    .behind (by decide +kernel) (List.forall_mem_nil _) (by decide +kernel)
  have hbody : newline ∉ bytes ")'(" := by decide +kernel
  rw [hread]
  refine ⟨rfl, ?_, ?_, ?_⟩
  · exact (readData_insert hread hnumber).1 (bytes "\t\r") (List.all_eq_true.mp (by decide +kernel))
  · exact ((readData_insert hread hcomment).2 _ hbody).1 (by decide)
  · exact ((readData_insert hread hquote).2 _ hbody).2 rfl

end ArenaLisp
