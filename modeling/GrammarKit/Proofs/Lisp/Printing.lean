import GrammarKit.Proofs.Lisp.Lexing

/-!
This module contains the tokens of printed expressions. Every expression whose names and texts can be
tokens at all is printed as a text that divides into just the tokens it is spelled with.
-/

namespace GrammarKit

open Token

namespace Lisp

namespace Expr

mutual

/-- No text contains a quote, and every name is one. -/
def Printable : Expr → Prop
  | .int _ => True
  | .str text => '\'' ∉ text.toList
  | .ref name => IsName name
  | .call func args => func.Printable ∧ PrintableAll args

def PrintableAll : List Expr → Prop
  | [] => True
  | e :: es => e.Printable ∧ PrintableAll es

end

mutual

instance decidablePrintable : (e : Expr) → Decidable e.Printable
  | .int _ => inferInstanceAs (Decidable True)
  | .str text => inferInstanceAs (Decidable ('\'' ∉ text.toList))
  | .ref name => inferInstanceAs (Decidable (IsName name))
  | .call func args =>
    have := func.decidablePrintable
    have := decidablePrintableAll args
    inferInstanceAs (Decidable (func.Printable ∧ PrintableAll args))

instance decidablePrintableAll : (es : List Expr) → Decidable (PrintableAll es)
  | [] => inferInstanceAs (Decidable True)
  | e :: es =>
    have := e.decidablePrintable
    have := decidablePrintableAll es
    inferInstanceAs (Decidable (e.Printable ∧ PrintableAll es))

end

end Expr

section Numerals

theorem isDigit_of_toDigits {n : Nat} {c : Char} (h : c ∈ Nat.toDigits 10 n)
    : Decimal.isDigit c = true := by
  have hdigit := Nat.isDigit_of_mem_toDigits (by decide) (by decide) h
  simpa [Decimal.isDigit, Char.isDigit, Char.le_def] using hdigit

theorem value_toDigits (n : Nat) : Decimal.value (Nat.toDigits 10 n) = n := by
  have hvalue := Nat.ofDigitChars_toDigits (n := n) (b := 10) (by decide) (by decide)
  rwa [Nat.ofDigitChars_eq_foldl] at hvalue

theorem numeral_repr (v : Int) : Numeral v.repr.toList v := by
  cases v with
  | ofNat n =>
    have hplain := Numeral.plain Nat.toDigits_ne_nil fun _ => isDigit_of_toDigits (n := n)
    rw [value_toDigits] at hplain
    simpa [Int.repr, Nat.repr_eq_ofList_toDigits] using hplain
  | negSucc n =>
    have hnegative := Numeral.negative Nat.toDigits_ne_nil fun _ => isDigit_of_toDigits (n := n + 1)
    have hvalue : -((n + 1 : Nat) : Int) = .negSucc n := rfl
    rw [value_toDigits, hvalue] at hnegative
    simpa [Int.repr, Nat.repr_eq_ofList_toDigits] using hnegative

theorem numeral_render (n : Int64) : Numeral (Decimal.render n).toList n.toInt :=
  numeral_repr n.toInt

end Numerals

/-- In front of `rest`, the text is divided into tokens, of which these are the visible ones. -/
def LexedAs (text : List Char) (words : List (String × String)) (rest : List Char) : Prop :=
  ∀ loc, ∃ tokens, lexer.Reads loc (text ++ rest) tokens rest ∧
    (tokens.filter Token.visible).map spelling = words

section Tokens

variable {text other rest : List Char} {words others : List (String × String)}

theorem LexedAs.nil (rest : List Char) : LexedAs [] [] rest :=
  fun _ => ⟨[], Lexer.reads_nil.mpr rfl, rfl⟩

theorem LexedAs.append (h : LexedAs text words (other ++ rest)) (h' : LexedAs other others rest)
    : LexedAs (text ++ other) (words ++ others) rest := by
  intro loc
  obtain ⟨tokens, hreads, rfl⟩ := h loc
  obtain ⟨more, hmore, rfl⟩ := h' (loc.advance (textOf tokens))
  refine ⟨tokens ++ more, ?_, by simp⟩
  rw [List.append_assoc]
  exact hreads.append hmore

/-- One match is a token, since no other rule matches where one does. -/
theorem LexedAs.of_yields {kind : String} {rule : TokenRule} (hrule : (kind, rule) ∈ lexerEntries)
    (hne : text ≠ [])
    (h : (rule.regex.eval rule.regex.rule ⟨text ++ rest⟩).Yields text)
    : LexedAs text (if rule.silent then [] else [(kind, String.ofList text)]) rest := by
  intro loc
  have hmatch : lexer.Matches (text ++ rest) kind text :=
    ⟨rule.regex, regex?_of_mem hrule, hne, List.prefix_append text rest,
      (Regex.matchAt_run_eq_some _ _).mpr h⟩
  have honly : lexer.OnlyMatch (text ++ rest) kind text := by
    refine ⟨hmatch, fun kind' text' hmatch' => ?_⟩
    obtain ⟨hlexeme, hpre⟩ := lexeme_of_matches hmatch
    obtain ⟨hlexeme', hpre'⟩ := lexeme_of_matches hmatch'
    exact hlexeme'.unique hlexeme hpre' hpre
  let t : Token := ⟨kind, String.ofList text, loc, !rule.silent⟩
  have hchars : t.chars = text := String.toList_ofList
  have hstarts : lexer.Starts loc (text ++ rest) t rest := by
    refine ⟨by rw [hchars], by rwa [hchars], ?_, rfl⟩
    rw [Lexer.mem_visible_iff (get?_lexer.mpr hrule)]
  refine ⟨[t], Lexer.reads_cons.mpr ⟨rest, hstarts, Lexer.reads_nil.mpr rfl⟩, ?_⟩
  cases hsilent : rule.silent with
  | false => simp [t, hsilent, spelling]
  | true => simp [t, hsilent]

theorem lexedAs_char {c : Char}
    (hrule : (String.singleton c, ⟨Regex.literal (String.singleton c), false⟩) ∈ lexerEntries)
    (rest : List Char)
    : LexedAs [c] [(String.singleton c, String.singleton c)] rest :=
  .of_yields hrule (List.cons_ne_nil c [])
    ((Pattern.takesOne_char c).takes c rest (beq_self_eq_true c))

theorem lexedAs_opening (rest : List Char) : LexedAs ['('] [("(", "(")] rest :=
  lexedAs_char (by simp [lexerEntries]) rest

theorem lexedAs_closing (rest : List Char) : LexedAs [')'] [(")", ")")] rest :=
  lexedAs_char (by simp [lexerEntries]) rest

theorem lexedAs_space (hrest : ∀ c ∈ rest.head?, c ∉ blanks) : LexedAs [' '] [] rest := by
  refine .of_yields space_mem (List.cons_ne_nil ' ' []) ?_
  refine (Regex.eval_plus_takeWhile takesOne_blank).mpr ⟨List.cons_ne_nil ' ' [], ?_⟩
  rw [List.singleton_append, List.takeWhile_cons_of_pos rfl]
  cases rest with
  | nil => rfl
  | cons c rest => rw [List.takeWhile_cons_of_neg (by simpa using hrest c rfl)]

theorem lexedAs_int {n : Int64} (hrest : ∀ c ∈ rest.head?, ¬ NamePart c)
    : LexedAs (Decimal.render n).toList [("int", Decimal.render n)] rest := by
  have hnumeral := numeral_render n
  have hdigits : ∀ c ∈ rest.head?, Decimal.isDigit c = false := by
    intro c hc
    rw [Bool.eq_false_iff]
    intro hdigit
    exact hrest c hc (.inr (by simpa [Decimal.isDigit] using hdigit))
  obtain ⟨c, behind, htext, _⟩ := hnumeral.start
  have hlexed : LexedAs (Decimal.render n).toList [("int", .ofList (Decimal.render n).toList)]
      rest :=
    .of_yields number_mem (by simp [htext]) (number_yields hnumeral hdigits)
  rwa [String.ofList_toList] at hlexed

theorem lexedAs_str {text : String} (h : '\'' ∉ text.toList)
    : LexedAs ("'" ++ text ++ "'").toList [("str", "'" ++ text ++ "'")] rest := by
  have htext : ("'" ++ text ++ "'").toList = ['\''] ++ text.toList ++ ['\''] := by simp
  have hlexed : LexedAs ("'" ++ text ++ "'").toList [("str", .ofList ("'" ++ text ++ "'").toList)]
      rest := by
    refine .of_yields quotation_mem (by simp) (quotation_yields.mpr ?_)
    exact ⟨text.toList, h, htext, List.prefix_append _ rest⟩
  rwa [String.ofList_toList] at hlexed

theorem lexedAs_ref {name : String} (h : IsName name) (hrest : ∀ c ∈ rest.head?, ¬ NamePart c)
    : LexedAs name.toList [("id", name)] rest := by
  obtain ⟨c, part, hname, hc, hpart⟩ := h
  have hinside : ∀ d ∈ part, Reader.isNamePart d = true :=
    fun d hd => Reader.isNamePart_iff.mpr (hpart d hd)
  have hstop : ∀ d ∈ rest.head?, Reader.isNamePart d = false :=
    fun d hd => Reader.isNamePart_eq_false.mpr (hrest d hd)
  have hlexed : LexedAs name.toList [("id", .ofList name.toList)] rest := by
    refine .of_yields identifier_mem (by simp [hname])
      (identifier_yields.mpr ⟨c, part ++ rest, hc, ?_, ?_⟩)
    · rw [hname, List.cons_append]
    · rw [hname, takeWhile_append_of_stop hinside hstop]
  rwa [String.ofList_toList] at hlexed

end Tokens

section Expressions

theorem notMem_blanks_of_nameStart {c : Char} (h : NameStart c) : c ∉ blanks := by
  intro hmem
  simp only [blanks, List.mem_cons, List.not_mem_nil, or_false] at hmem
  rcases hmem with rfl | rfl | rfl <;> exact absurd h (by decide)

theorem render_start {e : Expr} (h : e.Printable) (rest : List Char)
    : ∀ c ∈ (e.render.toList ++ rest).head?, c ∉ blanks := by
  intro c hc
  cases e with
  | int n =>
    obtain ⟨d, behind, htext, hkind⟩ := (numeral_render n).start
    rw [Expr.render, htext] at hc
    cases hc
    intro hmem
    rw [kindOf_blank hmem] at hkind
    exact absurd hkind (by decide)
  | str text =>
    rw [Expr.render, String.append_assoc, String.toList_append] at hc
    cases hc
    decide
  | ref name =>
    obtain ⟨d, part, hname, hd, _⟩ := h
    rw [Expr.render, hname] at hc
    cases hc
    exact notMem_blanks_of_nameStart hd
  | call func args =>
    simp only [Expr.render, String.append_assoc, String.toList_append] at hc
    cases hc
    decide

theorem renderArgs_start (es : List Expr) (rest : List Char)
    : ∀ c ∈ ((Expr.renderArgs es).toList ++ ')' :: rest).head?, ¬ NamePart c := by
  intro c hc
  cases es with
  | nil =>
    rw [Expr.renderArgs] at hc
    cases hc
    decide
  | cons e es =>
    rw [Expr.renderArgs, String.append_assoc, String.toList_append] at hc
    cases hc
    decide

mutual

/-- What stands behind an expression must not go on with its last name or integer. -/
theorem lexedAs_render : ∀ {e : Expr}, e.Printable → ∀ {rest : List Char},
    (∀ c ∈ rest.head?, ¬ NamePart c) → ∃ ws, Spelled e ws ∧ LexedAs e.render.toList ws rest
  | .int n, _, _, hrest => ⟨_, .int (numeral_render n), lexedAs_int hrest⟩
  | .str _, h, _, _ => ⟨_, .str, lexedAs_str h⟩
  | .ref _, h, _, hrest => ⟨_, .ref, lexedAs_ref h hrest⟩
  | .call func args, h, rest, _ => by
    obtain ⟨others, hothers, hargs⟩ := lexedAs_renderArgs h.2
    obtain ⟨words, hwords, hfunc⟩ := lexedAs_render h.1 (renderArgs_start args rest)
    refine ⟨_, .call hwords hothers, ?_⟩
    have hlexed := (((lexedAs_opening _).append hfunc).append hargs).append (lexedAs_closing rest)
    simpa [Expr.render] using hlexed

theorem lexedAs_renderArgs : ∀ {es : List Expr}, Expr.PrintableAll es → ∀ {rest : List Char},
    ∃ ws, SpelledAll es ws ∧ LexedAs (Expr.renderArgs es).toList ws (')' :: rest)
  | [], _, rest => ⟨[], .nil, LexedAs.nil (')' :: rest)⟩
  | e :: es, h, rest => by
    obtain ⟨others, hothers, hargs⟩ := lexedAs_renderArgs h.2
    obtain ⟨words, hwords, hfirst⟩ := lexedAs_render h.1 (renderArgs_start es rest)
    refine ⟨_, .cons hwords hothers, ?_⟩
    have hlexed := ((lexedAs_space (render_start h.1 _)).append hfirst).append hargs
    simpa [Expr.renderArgs] using hlexed

end

end Expressions

end Lisp

end GrammarKit
