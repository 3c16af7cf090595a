import ArenaLisp.Proofs.NumberText
import ArenaLisp.Proofs.Reading
import ArenaLisp.Tree.Printer
import Mathlib.Data.List.ReduceOption

/-!
# Printing and reading

What can be read is of few kinds: numbers that are finite, symbols that are not taken for
numbers, and proper lists of such. Every datum of every text is of these kinds, also those before
an error. And of these kinds every value can be read: its text is read as itself, wherever it
stands before something that no token goes on with. So printing is a normal form.
-/

namespace ArenaLisp

open Text Token

namespace Tree

/-- Whether a value can be read. -/
inductive Readable : Tree → Prop where
  | number {x : Number} : x.Finite → Readable (.number x)
  | atom {name : String} : IsSymbol name → ¬Numeral.Begins (bytes name) → Readable (.atom name)
  | list {ts : List Tree} : (∀ t ∈ ts, Readable t) → Readable (.ofList ts)

theorem Readable.quote {t : Tree} (h : t.Readable) : t.quote.Readable := by
  refine .list fun t' ht' => ?_
  rcases List.mem_cons.mp ht' with rfl | ht'
  · exact .atom (by decide +kernel) (by decide +kernel)
  · rwa [List.mem_singleton.mp ht']

end Tree

/-! ## What is read -/

theorem Item.Reads.readable {s rest : Bytes} {items : List Item} (h : Reads s items rest) :
    ∀ item ∈ items, item.Satisfies Tree.Readable := by
  induction h with
  | nil => exact fun _ hitem => absurd hitem List.not_mem_nil
  | comment _ _ ih => exact List.forall_mem_cons.mpr ⟨trivial, ih⟩
  | @number s s₁ rest n items _ _ ih =>
      refine List.forall_mem_cons.mpr ⟨?_, ih⟩
      rw [ofNumeral]
      cases hn : n.value with
      | error e => trivial
      | ok x => exact .number (Numeral.finite_value hn)
  | @symbol s s₁ rest name items hs _ ih =>
      refine List.forall_mem_cons.mpr ⟨?_, ih⟩
      obtain ⟨layout, s', -, -, hlexes⟩ := scan?_eq_some.mp hs
      cases hlexes with
      | symbol hnone hname hlongest =>
          refine Tree.Readable.atom hname fun hbegins => ?_
          obtain ⟨lexeme, hp, hspelled⟩ := Numeral.begins_iff.mp hbegins
          exact hnone lexeme (hp.trans ⟨_, hlongest.cut.symm⟩) hspelled
  | list _ _ _ _ ihinner ih =>
      refine List.forall_mem_cons.mpr ⟨?_, ih⟩
      rw [ofItems]
      split
      · rename_i ts hts
        exact .list (data_satisfies ihinner hts)
      · trivial
  | @quote s s₁ s₂ rest item items _ _ _ ihone ih =>
      refine List.forall_mem_cons.mpr ⟨?_, ih⟩
      have hitem := ihone item List.mem_cons_self
      cases item with
      | datum t => exact Tree.Readable.quote hitem
      | comment => trivial
      | fault e => trivial

theorem Item.all_readable (s : Bytes) : ∀ p ∈ all s, p.1.Satisfies Tree.Readable := by
  induction hn : s.length using Nat.strongRecOn generalizing s with
  | ind n ih =>
      subst hn
      by_cases hreads : ∃ item rest, Reads s [item] rest
      · obtain ⟨item, rest, hone⟩ := hreads
        have hlen := hone.length_le
        rw [all_eq_cons hone]
        refine List.forall_mem_cons.mpr ⟨hone.readable item List.mem_cons_self, ?_⟩
        exact ih rest.length (by simp at hlen; omega) rest rfl
      · rw [all_eq_nil fun item rest hone => hreads ⟨item, rest, hone⟩]
        exact fun _ hp => absurd hp List.not_mem_nil

/-- **Every datum of a text can be read**, also of a text with an error. -/
theorem readAll_readable (text : Bytes) : ∀ t ∈ (readAll text).values, t.Readable :=
  Reading.ofItems_satisfies (Item.all_readable text)

/-! ## What is printed -/

/-- Values on one line, a blank between each two. -/
def printed (ts : List Tree) : String := " ".intercalate (ts.map Tree.render)

theorem Tree.foldr_pair_ne_absent {last : Tree} (hlast : last ≠ .absent) (ts : List Tree) :
    ts.foldr .pair last ≠ .absent := by
  cases ts with
  | nil => exact hlast
  | cons t ts => exact Tree.noConfusion

/-- The pairs of a list are written one after the other, and then what it ends with. -/
theorem Tree.renderTail_foldr {last : Tree} (hlast : last ≠ .absent) (ts : List Tree) :
    (ts.foldr .pair last).renderTail =
      String.join (ts.map fun t => " " ++ t.render) ++ last.renderTail := by
  induction ts with
  | nil => simp
  | cons t ts ih =>
      have hcons : ((t :: ts).foldr .pair last).renderTail =
          " " ++ t.render ++ (ts.foldr .pair last).renderTail :=
        renderTail_pair fun hnil => foldr_pair_ne_absent hlast ts hnil.2
      rw [hcons, ih, List.map_cons, String.join_cons]
      simp only [String.append_assoc]

theorem printed_cons (t : Tree) (ts : List Tree) :
    printed (t :: ts) = t.render ++ String.join (ts.map fun t => " " ++ t.render) := by
  induction ts generalizing t with
  | nil => simp [printed]
  | cons t' ts ih =>
      rw [printed, List.map_cons, List.map_cons, String.intercalate_cons_cons, ← List.map_cons,
        ← printed, ih, List.map_cons, String.join_cons]
      simp only [String.append_assoc]

theorem Tree.render_foldr {last : Tree} (hlast : last ≠ .absent) (t : Tree) (ts : List Tree) :
    ((t :: ts).foldr .pair last).render = "(" ++ printed (t :: ts) ++ last.renderTail := by
  have hcons : ((t :: ts).foldr .pair last).render =
      "(" ++ t.render ++ (ts.foldr .pair last).renderTail :=
    render_pair fun hnil => foldr_pair_ne_absent hlast ts hnil.2
  rw [hcons, renderTail_foldr hlast, printed_cons]
  simp only [String.append_assoc]

/-- A list is printed as what it holds, in parentheses. -/
theorem Tree.render_ofList (ts : List Tree) : (ofList ts).render = "(" ++ printed ts ++ ")" := by
  cases ts with
  | nil => rfl
  | cons t ts => rw [ofList_eq_foldr, render_foldr Tree.noConfusion, nil, renderTail]

theorem bytes_append (s t : String) : bytes (s ++ t) = bytes s ++ bytes t := by
  rw [bytes_eq_encode, String.toList_append, encode_append, ← bytes_eq_encode, ← bytes_eq_encode]

/-! ## What is printed is read -/

/-- Whether no token that a text is put behind goes on into it. -/
def Stops (rest : Bytes) : Prop := ∀ x ∈ rest.head?, isTokenByte x = false

theorem Stops.longest {L : Bytes → Prop} {lexeme rest : Bytes} (h : Stops rest)
    (hL : ∀ s, L s → ∀ b ∈ s, isTokenByte b = true) (hlexeme : L lexeme) :
    Longest L (lexeme ++ rest) lexeme rest :=
  .of_stop hlexeme fun x hx => not_mem_of_isTokenByte (h x hx) hL

theorem Stops.number {n : Numeral} {rest : Bytes} (h : Stops rest) (hn : n.Proper) :
    Next (n.spelling ++ rest) (.number n) rest :=
  ⟨[], _, rfl, by simp, .number hn (h.longest (fun _ hs => isTokenByte_numeral hs) ⟨n, hn, rfl⟩)⟩

theorem Stops.symbol {name : String} {rest : Bytes} (h : Stops rest) (hname : IsSymbol name)
    (hplain : ¬Numeral.Begins (bytes name)) : Next (bytes name ++ rest) (.symbol name) rest := by
  refine ⟨[], _, rfl, by simp, .symbol (fun lexeme hp hspelled => ?_) hname
    (h.longest (fun _ hs => isTokenByte_symbol hs) ⟨name, hname, rfl⟩)⟩
  refine hplain (Numeral.begins_iff.mpr ⟨lexeme, ?_, hspelled⟩)
  cases rest with
  | nil => exact (List.append_nil (bytes name)) ▸ hp
  | cons x rest =>
      exact Longest.prefix_of_not_mem hp
        (not_mem_of_isTokenByte (h x rfl) (fun _ hs => isTokenByte_numeral hs) lexeme hspelled)

theorem Token.Next.layout {b : UInt8} {s rest : Bytes} {t : Token} (hb : isLayout b = true)
    (h : Next s t rest) : Next (b :: s) t rest := by
  obtain ⟨layout, s', rfl, hlayout, h⟩ := h
  exact ⟨b :: layout, s', rfl, List.forall_mem_cons.mpr ⟨hb, hlayout⟩, h⟩

/-- Layout before the first item does not matter. -/
theorem Row.layout {b : UInt8} {s rest : Bytes} {v : Option Tree} {vs : List (Option Tree)}
    (hb : isLayout b = true) (h : Row s (v :: vs) rest) : Row (b :: s) (v :: vs) rest := by
  cases h with
  | comment hs hrow => exact .comment (hs.layout hb) hrow
  | number hs hr hrow => exact .number (hs.layout hb) hr hrow
  | symbol hs hrow => exact .symbol (hs.layout hb) hrow
  | list hs hinner hclose hrow => exact .list (hs.layout hb) hinner hclose hrow
  | quote hs hone hrow => exact .quote (hs.layout hb) hone hrow

theorem bytes_blank : bytes " " = [0x20] := by decide +kernel

theorem bytes_opening : bytes "(" = [openingByte] := by decide +kernel

theorem bytes_closing : bytes ")" = [closingByte] := by decide +kernel

/-- Values that are each read as themselves are, on one line, read as themselves. -/
theorem Row.printed {ts : List Tree}
    (h : ∀ t ∈ ts, ∀ rest, Stops rest → Row (bytes t.render ++ rest) [some t] rest) {rest : Bytes}
    (hrest : Stops rest) : Row (bytes (printed ts) ++ rest) (ts.map some) rest := by
  induction ts with
  | nil =>
      rw [ArenaLisp.printed, bytes_eq_encode]
      exact .nil
  | cons t ts ih =>
      obtain ⟨ht, hts⟩ := List.forall_mem_cons.mp h
      cases ts with
      | nil => exact ht rest hrest
      | cons t' ts =>
          have hcut : bytes (ArenaLisp.printed (t :: t' :: ts)) ++ rest =
              bytes t.render ++ 0x20 :: (bytes (ArenaLisp.printed (t' :: ts)) ++ rest) := by
            rw [ArenaLisp.printed, List.map_cons, List.map_cons, String.intercalate_cons_cons,
              bytes_append, bytes_append, bytes_blank]
            simp [ArenaLisp.printed]
          rw [hcut]
          refine (ht _ fun x hx => ?_).append ((ih hts).layout (by decide))
          cases hx
          decide

theorem reduceOption_map_some (ts : List Tree) : (ts.map some).reduceOption = ts := by
  induction ts with
  | nil => rfl
  | cons t ts ih => rw [List.map_cons, List.reduceOption_cons_of_some, ih]

/-- **The text of a value that can be read is read as the value.** -/
theorem Tree.Readable.row {t : Tree} (h : t.Readable) :
    ∀ rest, Stops rest → Row (bytes t.render ++ rest) [some t] rest := by
  induction h with
  | @number x hx =>
      intro rest hrest
      obtain ⟨n, hn, hspelling, hvalue⟩ := Number.exists_numeral hx
      obtain ⟨hrange, rfl⟩ := Numeral.value_eq_ok.mp hvalue
      rw [render, ← hspelling]
      exact .number (hrest.number hn) hrange .nil
  | atom hname hplain =>
      intro rest hrest
      exact .symbol (hrest.symbol hname hplain) .nil
  | @list ts _ ih =>
      intro rest hrest
      -- inside, what stops the last value is the parenthesis, whatever comes behind the list.
      have hinner : Row (bytes (printed ts) ++ closingByte :: rest) (ts.map some)
          (closingByte :: rest) := by
        refine .printed ih fun x hx => ?_
        cases hx
        decide
      rw [render_ofList, bytes_append, bytes_append, bytes_opening, bytes_closing,
        List.append_assoc, List.append_assoc]
      have hlist := Row.list ⟨[], _, rfl, by simp, .opening⟩ hinner
        ⟨[], _, rfl, by simp, .closing⟩ .nil
      rwa [reduceOption_map_some] at hlist

theorem readAll_printed {ts : List Tree} (hts : ∀ t ∈ ts, t.Readable) :
    readAll (bytes (printed ts)) = ⟨ts, [], none⟩ := by
  have hrow : Row (bytes (printed ts) ++ []) (ts.map some) [] :=
    .printed (fun t ht => (hts t ht).row) nofun
  rw [List.append_nil] at hrow
  rw [hrow.readAll rfl, reduceOption_map_some]

/--
**Printing and reading are inverse.** Whatever is read from a text can be read; values that can be
read are read as themselves from the line they are printed on, and nothing of it is left over; so
reading, printing and reading again gives the same values.
-/
theorem read_printed :
    (∀ text, ∀ t ∈ (readAll text).values, t.Readable) ∧
    (∀ ts, (∀ t ∈ ts, t.Readable) → readAll (bytes (printed ts)) = ⟨ts, [], none⟩) ∧
    ∀ text, readAll (bytes (printed (readAll text).values)) = ⟨(readAll text).values, [], none⟩ :=
  ⟨readAll_readable, fun _ => readAll_printed, fun text => readAll_printed (readAll_readable text)⟩

/-- The least whole number, a negative zero, symbols like numbers, and lists in lists. -/
theorem read_printed_lists : ∃ ts : List Tree,
    ts = [.number (.int (-2147483648)), .number (.float (Float32.ofBits 0x80000000)),
      .ofList [.atom "-a", .ofList [.atom "+", .ofList []]], .atom "-.x"] ∧
    (∀ t ∈ ts, t.Readable) ∧
    bytes (printed ts) = bytes "-2147483648 -0.0 (-a (+ ())) -.x" ∧
    readAll (bytes (printed ts)) = ⟨ts, [], none⟩ := by
  have hts : ∀ t ∈ ([.number (.int (-2147483648)), .number (.float (Float32.ofBits 0x80000000)),
      .ofList [.atom "-a", .ofList [.atom "+", .ofList []]], .atom "-.x"] : List Tree),
      t.Readable := by
    have hatom : ∀ name ∈ ["-a", "+", "-.x"], (Tree.atom name).Readable := by
      have hnames : ∀ name ∈ ["-a", "+", "-.x"], IsSymbol name ∧ ¬Numeral.Begins (bytes name) := by
        decide +kernel
      exact fun name hname => .atom (hnames name hname).1 (hnames name hname).2
    simp only [List.forall_mem_cons, List.not_mem_nil] at hatom ⊢
    refine ⟨.number trivial, .number (by decide +kernel : Single.Finite _), .list ?_,
      hatom.2.2.1, nofun⟩
    simp only [List.forall_mem_cons]
    refine ⟨hatom.1, .list ?_, nofun⟩
    simp only [List.forall_mem_cons]
    exact ⟨hatom.2.1, .list nofun, nofun⟩
  exact ⟨_, rfl, hts, by decide +kernel, read_printed.2.1 _ hts⟩

end ArenaLisp
