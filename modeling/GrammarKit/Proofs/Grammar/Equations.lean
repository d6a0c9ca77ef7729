import GrammarKit.Proofs.Grammar.Words
import GrammarKit.Proofs.Run.Eventually

/-!
This module contains the equations of the grammar reader without its bounds on calls: whatever is
read is read from less text than was left at the call before, so more calls make no difference.
-/

namespace GrammarKit

namespace Reader

/-- What `read` finds, together with what `right` finds behind the operator, if it is there. -/
def chained (op : Char) (combine : Rhs → Rhs → Rhs)
    (read right : List Char → Except Error (Rhs × List Char)) (text : List Char)
    : Except Error (Rhs × List Char) := do
  let (first, rest) ← read text
  return infixed op combine right first rest

/-- An operand with the space around it. -/
def spaced (nested : List Char → Except Error (Rhs × List Char)) (text : List Char)
    : Except Error (Rhs × List Char) := do
  let (inner, rest) ← operand nested (skipSpace text)
  return (inner, skipSpace rest)

theorem alternation_succ (fuel : Nat)
    : alternation (fuel + 1) =
        chained '|' .alternation (concatenation fuel) (alternation fuel) := rfl

theorem concatenation_succ (fuel : Nat)
    : concatenation (fuel + 1) = chained ',' .concatenation (term fuel) (concatenation fuel) := rfl

theorem term_succ (fuel : Nat) : term (fuel + 1) = spaced (alternation fuel) := rfl

section Induction

variable {P Q R : (List Char → Except Error (Rhs × List Char)) → Prop}

/-- What holds of failure and is kept by chains and operands holds of everything read. -/
theorem reader_induction
    (hfails : P (fun text => .error ⟨text, .tag⟩) ∧ Q (fun text => .error ⟨text, .tag⟩) ∧
      R fun text => .error ⟨text, .tag⟩)
    (halternation : ∀ {read right}, Q read → P right → P (chained '|' .alternation read right))
    (hconcatenation : ∀ {read right}, R read → Q right → Q (chained ',' .concatenation read right))
    (hterm : ∀ {nested}, P nested → R (spaced nested)) (fuel : Nat)
    : P (alternation fuel) ∧ Q (concatenation fuel) ∧ R (term fuel) := by
  induction fuel with
  | zero => exact hfails
  | succ fuel ih =>
    rw [alternation_succ, concatenation_succ, term_succ]
    exact ⟨halternation ih.2.1 ih.1, hconcatenation ih.2.2 ih.2.1, hterm ih.1⟩

end Induction

section Success

variable {text rest : List Char} {r : Rhs}
variable {nested read right : List Char → Except Error (Rhs × List Char)}

theorem closed_eq_ok {close : Char}
    : closed close nested text = .ok (r, rest) ↔ nested text = .ok (r, close :: rest) := by
  constructor
  · intro h
    obtain ⟨⟨inner, behind⟩, hinner, h⟩ := bind_eq_ok.mp h
    obtain ⟨after, hafter, h⟩ := bind_eq_ok.mp h
    cases h
    rwa [symbol_eq_ok.mp hafter] at hinner
  · intro hinner
    exact bind_eq_ok.mpr ⟨_, hinner, bind_eq_ok.mpr ⟨_, symbol_eq_ok.mpr rfl, rfl⟩⟩

/-- An operand is something in brackets, something in quotes or a name. -/
inductive Operand (nested : List Char → Except Error (Rhs × List Char)) :
    List Char → Rhs → List Char → Prop where
  | group {text rest : List Char} {r : Rhs} (h : nested text = .ok (r, ')' :: rest)) :
      Operand nested ('(' :: text) r rest
  | repetition {text rest : List Char} {r : Rhs} (h : nested text = .ok (r, '}' :: rest))
      (hplus : '+' ∉ rest.head?) : Operand nested ('{' :: text) (.repetition r) rest
  | repetition1 {text rest : List Char} {r : Rhs} (h : nested text = .ok (r, '}' :: '+' :: rest)) :
      Operand nested ('{' :: text) (.repetition1 r) rest
  | optional {text rest : List Char} {r : Rhs} (h : nested text = .ok (r, ']' :: rest)) :
      Operand nested ('[' :: text) (.optional r) rest
  | quoted {text rest : List Char} {found : String} (h : quotedText text = .ok (found, rest)) :
      Operand nested text (.terminal found) rest
  | name {text rest : List Char} {found : String} (h : name text = .ok (found, rest)) :
      Operand nested text (.identifier found) rest

theorem Operand.of_operand (h : operand nested text = .ok (r, rest)) : Operand nested text r rest := by
  have hquoted : ∀ {found : String × List Char}, quotedText text = .ok found →
      (Rhs.terminal found.1, found.2) = (r, rest) → Operand nested text r rest := by
    rintro ⟨found, _⟩ hfound ⟨⟩
    exact .quoted hfound
  unfold operand at h
  replace h := mapError_eq_ok.mp h
  split at h
  · exact .group (closed_eq_ok.mp h)
  · obtain ⟨⟨inner, left⟩, hinner, h⟩ := bind_eq_ok.mp h
    rw [closed_eq_ok] at hinner
    replace h : repeatedAs inner left = (r, rest) := Except.ok.inj h
    unfold repeatedAs at h
    split at h
    · cases h
      exact .repetition1 hinner
    · next hplus =>
      cases h
      refine .repetition hinner fun hmem => ?_
      obtain ⟨behind, heq⟩ := List.head?_eq_some_iff.mp hmem
      exact hplus behind heq
  · obtain ⟨⟨inner, left⟩, hinner, h⟩ := bind_eq_ok.mp h
    cases h
    exact .optional (closed_eq_ok.mp hinner)
  · obtain ⟨found, hfound, h⟩ := bind_eq_ok.mp h
    exact hquoted hfound (Except.ok.inj h)
  · obtain ⟨found, hfound, h⟩ := bind_eq_ok.mp h
    exact hquoted hfound (Except.ok.inj h)
  · obtain ⟨⟨found, _⟩, hfound, h⟩ := bind_eq_ok.mp h
    cases h
    exact .name hfound

theorem Operand.operand_eq (h : Operand nested text r rest)
    : operand nested text = .ok (r, rest) := by
  apply mapError_eq_ok.mpr
  cases h with
  | group h => exact closed_eq_ok.mpr h
  | @repetition _ _ inner h hplus =>
    have hrepeated : repeatedAs inner rest = (.repetition inner, rest) := by
      unfold repeatedAs
      split
      · exact absurd rfl hplus
      · rfl
    exact bind_eq_ok.mpr ⟨_, closed_eq_ok.mpr h, congrArg Except.ok hrepeated⟩
  | repetition1 h => exact bind_eq_ok.mpr ⟨_, closed_eq_ok.mpr h, rfl⟩
  | optional h => exact bind_eq_ok.mpr ⟨_, closed_eq_ok.mpr h, rfl⟩
  | quoted h =>
    obtain ⟨word, hword, rfl⟩ := quotedText_eq_ok.mp h
    cases hword with
    | double | single => exact bind_eq_ok.mpr ⟨_, h, rfl⟩
  | name h =>
    obtain ⟨⟨c, part, heq, hstart, _⟩, rfl, _⟩ := name_eq_ok.mp h
    rw [heq, List.cons_append] at h ⊢
    split
    all_goals first
      | exact bind_eq_ok.mpr ⟨_, h, rfl⟩
      | next hbracket =>
        cases hbracket
        exact absurd hstart (by decide)

theorem operand_eq_ok : operand nested text = .ok (r, rest) ↔ Operand nested text r rest :=
  ⟨.of_operand, Operand.operand_eq⟩

theorem spaced_eq_ok
    : spaced nested text = .ok (r, rest) ↔
        ∃ behind, operand nested (skipSpace text) = .ok (r, behind) ∧ skipSpace behind = rest := by
  constructor
  · intro h
    obtain ⟨⟨inner, behind⟩, hinner, h⟩ := bind_eq_ok.mp h
    cases h
    exact ⟨behind, hinner, rfl⟩
  · rintro ⟨behind, hinner, rfl⟩
    exact bind_eq_ok.mpr ⟨_, hinner, rfl⟩

theorem chained_of_other {op : Char} {combine : Rhs → Rhs → Rhs} (h : read text = .ok (r, rest))
    (hop : op ∉ rest.head?)
    : chained op combine read right text = .ok (r, rest) := by
  refine bind_eq_ok.mpr ⟨_, h, ?_⟩
  show Except.ok (infixed op combine right r rest) = _
  unfold infixed
  split
  · next hright =>
    obtain ⟨after, hsymbol, _⟩ := bind_eq_ok.mp hright
    simp [symbol_eq_ok.mp hsymbol] at hop
  · rfl

theorem chained_of_operator {op : Char} {combine : Rhs → Rhs → Rhs} {left other : Rhs}
    {after : List Char} (h : read text = .ok (left, op :: after))
    (hright : right after = .ok (other, rest))
    : chained op combine read right text = .ok (combine left other, rest) := by
  have hsymbol : (symbol op (op :: after) >>= right) = .ok (other, rest) :=
    bind_eq_ok.mpr ⟨_, symbol_eq_ok.mpr rfl, hright⟩
  refine bind_eq_ok.mpr ⟨_, h, ?_⟩
  simp only [infixed, hsymbol]
  rfl

/-- Either the operator and its right operand follow, or the left operand is all there is. -/
theorem chained_cases {op : Char} {combine : Rhs → Rhs → Rhs}
    (h : chained op combine read right text = .ok (r, rest))
    : read text = .ok (r, rest) ∨
        ∃ left other after, read text = .ok (left, op :: after) ∧
          right after = .ok (other, rest) ∧ r = combine left other := by
  obtain ⟨⟨left, behind⟩, hleft, h⟩ := bind_eq_ok.mp h
  replace h : infixed op combine right left behind = (r, rest) := Except.ok.inj h
  unfold infixed at h
  split at h
  · next other _ hright =>
    obtain ⟨after, hsymbol, hright⟩ := bind_eq_ok.mp hright
    cases h
    rw [symbol_eq_ok.mp hsymbol] at hleft
    exact .inr ⟨left, other, after, hleft, hright, rfl⟩
  · cases h
    exact .inl hleft

/-- A statement is a name, an operator, what the operator asks for and a semicolon. -/
theorem statement_eq_ok {s : Statement}
    : statement text = .ok (s, rest) ↔
        ∃ lhs behind after, name (skipSpace text) = .ok (lhs, behind) ∧
          ((∃ body, operator (skipSpace behind) = .ok (.production, after) ∧
              rhs after = .ok (body, ';' :: rest) ∧ s = .production ⟨lhs, body⟩) ∨
            ∃ pattern silent beyond,
              operator (skipSpace behind) = .ok (if silent then .silentToken else .token, after) ∧
                quotedText (skipSpace after) = .ok (pattern, beyond) ∧
                skipSpace beyond = ';' :: rest ∧ s = .token ⟨lhs, pattern, silent⟩) := by
  constructor
  · intro h
    obtain ⟨⟨lhs, behind⟩, hlhs, h⟩ := bind_eq_ok.mp h
    obtain ⟨⟨op, after⟩, hop, h⟩ := bind_eq_ok.mp h
    refine ⟨lhs, behind, after, hlhs, ?_⟩
    cases op with
    | production =>
      obtain ⟨⟨body, left⟩, hbody, h⟩ := bind_eq_ok.mp h
      obtain ⟨_, hend, h⟩ := bind_eq_ok.mp h
      cases h
      exact .inl ⟨body, hop, symbol_eq_ok.mp hend ▸ hbody, rfl⟩
    | token =>
      obtain ⟨⟨pattern, beyond⟩, hpattern, h⟩ := bind_eq_ok.mp h
      obtain ⟨_, hend, h⟩ := bind_eq_ok.mp h
      cases h
      exact .inr ⟨pattern, false, beyond, hop, hpattern, symbol_eq_ok.mp hend, rfl⟩
    | silentToken =>
      obtain ⟨⟨pattern, beyond⟩, hpattern, h⟩ := bind_eq_ok.mp h
      obtain ⟨_, hend, h⟩ := bind_eq_ok.mp h
      cases h
      exact .inr ⟨pattern, true, beyond, hop, hpattern, symbol_eq_ok.mp hend, rfl⟩
  · rintro ⟨lhs, behind, after, hlhs, hbody⟩
    refine bind_eq_ok.mpr ⟨_, hlhs, ?_⟩
    rcases hbody with ⟨body, hop, hbody, rfl⟩ | ⟨pattern, silent, beyond, hop, hpattern, hend, rfl⟩
    · refine bind_eq_ok.mpr ⟨_, hop, bind_eq_ok.mpr ⟨_, hbody, ?_⟩⟩
      exact bind_eq_ok.mpr ⟨_, symbol_eq_ok.mpr rfl, rfl⟩
    · refine bind_eq_ok.mpr ⟨_, hop, ?_⟩
      have hlast := symbol_eq_ok.mpr hend
      cases silent with
      | false | true =>
        exact bind_eq_ok.mpr ⟨_, hpattern, bind_eq_ok.mpr ⟨_, hlast, rfl⟩⟩

end Success

section Lengths

variable {text rest : List Char}

theorem length_skipSpace_le (text : List Char) : (skipSpace text).length ≤ text.length :=
  (List.dropWhile_sublist isSpace).length_le

theorem length_of_quotedText {found : String} (h : quotedText text = .ok (found, rest))
    : rest.length < text.length := by
  obtain ⟨word, hword, rfl⟩ := quotedText_eq_ok.mp h
  cases hword with
  | double | single =>
    simp only [List.length_append, List.length_cons]
    omega

theorem length_of_name {found : String} (h : name text = .ok (found, rest))
    : rest.length < text.length := by
  obtain ⟨⟨c, part, heq, _⟩, rfl, _⟩ := name_eq_ok.mp h
  simp only [heq, List.length_append, List.length_cons]
  omega

theorem length_of_operator {op : Operator} (h : operator text = .ok (op, rest))
    : rest.length < text.length := by
  rw [operator_eq_ok.mp h]
  cases op <;> simp only [Operator.word, List.length_append, List.length_cons] <;> omega

/-- No more text is left than there was. -/
def Shortens (read : List Char → Except Error (Rhs × List Char)) : Prop :=
  ∀ text r rest, read text = .ok (r, rest) → rest.length ≤ text.length

variable {read right nested : List Char → Except Error (Rhs × List Char)}

theorem shortens_operand (h : Shortens nested) : Shortens (operand nested) := by
  intro text r rest hread
  cases operand_eq_ok.mp hread with
  | group hinner | repetition hinner | repetition1 hinner | optional hinner =>
    have hlength := h _ _ _ hinner
    simp only [List.length_cons] at hlength ⊢
    omega
  | quoted hfound => exact Nat.le_of_lt (length_of_quotedText hfound)
  | name hfound => exact Nat.le_of_lt (length_of_name hfound)

theorem shortens_spaced (h : Shortens nested) : Shortens (spaced nested) := by
  intro text r rest hread
  obtain ⟨behind, hoperand, rfl⟩ := spaced_eq_ok.mp hread
  have hlength := shortens_operand h _ _ _ hoperand
  have hbefore := length_skipSpace_le text
  have hbehind := length_skipSpace_le behind
  omega

theorem shortens_chained {op : Char} {combine : Rhs → Rhs → Rhs} (hread : Shortens read)
    (hright : Shortens right)
    : Shortens (chained op combine read right) := by
  intro text r rest h
  rcases chained_cases h with hleft | ⟨left, other, after, hleft, hother, _⟩
  · exact hread _ _ _ hleft
  · have hbehind := hread _ _ _ hleft
    have hrest := hright _ _ _ hother
    rw [List.length_cons] at hbehind
    omega

theorem shortens (fuel : Nat)
    : Shortens (alternation fuel) ∧ Shortens (concatenation fuel) ∧ Shortens (term fuel) := by
  have hfails : Shortens fun text => .error ⟨text, .tag⟩ := by
    intro text r rest h
    cases h
  exact reader_induction ⟨hfails, hfails, hfails⟩ shortens_chained shortens_chained shortens_spaced
    fuel

end Lengths

section Fuel

variable {text : List Char} {read read' right right' nested nested' : List Char →
  Except Error (Rhs × List Char)}

theorem operand_congr (h : ∀ rest, rest.length < text.length → nested rest = nested' rest)
    : operand nested text = operand nested' text := by
  unfold operand closed
  split
  · simp only [h _ (Nat.lt_succ_self _)]
  · simp only [h _ (Nat.lt_succ_self _)]
  · simp only [h _ (Nat.lt_succ_self _)]
  · rfl
  · rfl
  · rfl

theorem spaced_congr (h : ∀ rest, rest.length < text.length → nested rest = nested' rest)
    : spaced nested text = spaced nested' text := by
  have hskip := length_skipSpace_le text
  unfold spaced
  rw [operand_congr fun rest hrest => h rest (by omega)]

theorem infixed_congr {op : Char} {combine : Rhs → Rhs → Rhs} (left : Rhs)
    (h : ∀ rest, rest.length < text.length → right rest = right' rest)
    : infixed op combine right left text = infixed op combine right' left text := by
  have hbind : (symbol op text >>= right) = (symbol op text >>= right') := by
    cases hsymbol : symbol op text with
    | error e => rfl
    | ok rest => exact h rest (symbol_eq_ok.mp hsymbol ▸ Nat.lt_succ_self _)
  rw [infixed, infixed, hbind]

theorem chained_congr {op : Char} {combine : Rhs → Rhs → Rhs} (hread : read text = read' text)
    (hshort : Shortens read)
    (hright : ∀ rest, rest.length < text.length → right rest = right' rest)
    : chained op combine read right text = chained op combine read' right' text := by
  unfold chained
  rw [← hread]
  cases hfirst : read text with
  | error e => rfl
  | ok found =>
    have hlength := hshort _ _ _ hfirst
    exact congrArg Except.ok (infixed_congr _ fun rest hrest => hright rest (by omega))

/-- All bounds that are enough for the text read the same, or fail the same way. -/
theorem enough (fuel : Nat)
    : ∀ text other,
        (3 * text.length + 3 ≤ fuel → 3 * text.length + 3 ≤ other →
          alternation fuel text = alternation other text) ∧
        (3 * text.length + 2 ≤ fuel → 3 * text.length + 2 ≤ other →
          concatenation fuel text = concatenation other text) ∧
        (3 * text.length + 1 ≤ fuel → 3 * text.length + 1 ≤ other →
          term fuel text = term other text) := by
  induction fuel with
  | zero => grind
  | succ fuel ih =>
    intro text other
    cases other with
    | zero => grind
    | succ other =>
      rw [alternation_succ, concatenation_succ, term_succ, alternation_succ, concatenation_succ,
        term_succ]
      -- three calls in a row work on the same text, and the next one on a shorter text
      refine ⟨fun hfuel hother => ?_, fun hfuel hother => ?_, fun hfuel hother => ?_⟩
      · apply chained_congr ((ih text other).2.1 (by omega) (by omega)) (shortens fuel).2.1
        exact fun rest hrest => (ih rest other).1 (by omega) (by omega)
      · apply chained_congr ((ih text other).2.2 (by omega) (by omega)) (shortens fuel).2.2
        exact fun rest hrest => (ih rest other).2.1 (by omega) (by omega)
      · apply spaced_congr
        exact fun rest hrest => (ih rest other).1 (by omega) (by omega)

/-- Operands in a row. -/
def row (text : List Char) : Except Error (Rhs × List Char) :=
  concatenation (3 * text.length + 2) text

def factor (text : List Char) : Except Error (Rhs × List Char) :=
  term (3 * text.length + 1) text

theorem alternation_eq_rhs {fuel : Nat} (h : 3 * text.length + 3 ≤ fuel)
    : alternation fuel text = rhs text :=
  (enough fuel text _).1 h (Nat.le_refl _)

theorem concatenation_eq_row {fuel : Nat} (h : 3 * text.length + 2 ≤ fuel)
    : concatenation fuel text = row text :=
  (enough fuel text _).2.1 h (Nat.le_refl _)

theorem rhs_eq : rhs = chained '|' .alternation row rhs := by
  funext text
  rw [rhs, alternation_succ]
  apply chained_congr rfl (shortens _).2.1
  exact fun rest hrest => alternation_eq_rhs (by omega)

theorem row_eq : row = chained ',' .concatenation factor row := by
  funext text
  rw [row, concatenation_succ]
  apply chained_congr rfl (shortens _).2.2
  exact fun rest hrest => concatenation_eq_row (by omega)

theorem factor_eq : factor = spaced rhs := by
  funext text
  rw [factor, term_succ]
  apply spaced_congr
  exact fun rest hrest => alternation_eq_rhs (by omega)

end Fuel

section Statements

theorem length_of_statement {text rest : List Char} {s : Statement}
    (h : statement text = .ok (s, rest))
    : rest.length < text.length := by
  obtain ⟨lhs, behind, after, hlhs, hbody⟩ := statement_eq_ok.mp h
  have hafter : rest.length < after.length ∧ after.length < (skipSpace behind).length := by
    rcases hbody with ⟨body, hop, hbody, _⟩ | ⟨pattern, _, beyond, hop, hpattern, hend, _⟩
    · exact ⟨(shortens _).1 _ _ _ hbody, length_of_operator hop⟩
    · have hquoted := length_of_quotedText hpattern
      have hskip := length_skipSpace_le after
      have hbeyond := length_skipSpace_le beyond
      rw [hend, List.length_cons] at hbeyond
      exact ⟨by omega, length_of_operator hop⟩
  have htext := length_skipSpace_le text
  have hname := length_of_name hlhs
  have hbehind := length_skipSpace_le behind
  omega

theorem statement_of_blank {text : List Char} (h : skipSpace text = [])
    : ∃ e, statement text = .error e := by
  refine ⟨⟨[], .tag⟩, ?_⟩
  unfold statement
  rw [h]
  rfl

theorem statements_of_blank {text : List Char} (h : skipSpace text = []) (fuel : Nat)
    : statements fuel text = ([], text) := by
  cases fuel with
  | zero => rfl
  | succ fuel =>
    obtain ⟨e, he⟩ := statement_of_blank h
    rw [statements, he]

/-- There are no more statements than characters, so a greater bound makes no difference. -/
theorem statements_congr {fuel other : Nat} {text : List Char} (hfuel : text.length ≤ fuel)
    (hother : text.length ≤ other)
    : statements fuel text = statements other text := by
  induction fuel generalizing other text with
  | zero =>
    have hempty : text = [] := List.eq_nil_of_length_eq_zero (by omega)
    rw [hempty, statements_of_blank rfl, statements_of_blank rfl]
  | succ fuel ih =>
    cases other with
    | zero =>
      have hempty : text = [] := List.eq_nil_of_length_eq_zero (by omega)
      rw [hempty, statements_of_blank rfl, statements_of_blank rfl]
    | succ other =>
      rw [statements, statements]
      cases hstatement : statement text with
      | error e => rfl
      | ok found =>
        have hlength := length_of_statement hstatement
        have hothers : statements fuel found.2 = statements other found.2 :=
          ih (by omega) (by omega)
        simp only [hothers]

/-- Statements up to the first that cannot be read, and what is left. -/
def listing (text : List Char) : List Statement × List Char := statements text.length text

theorem listing_of_error {text : List Char} {e : Error} (h : statement text = .error e)
    : listing text = ([], text) := by
  unfold listing
  cases text with
  | nil => rfl
  | cons c text => rw [List.length_cons, statements, h]

theorem listing_of_ok {text rest : List Char} {s : Statement} (h : statement text = .ok (s, rest))
    : listing text = (s :: (listing rest).1, (listing rest).2) := by
  have hlength := length_of_statement h
  obtain ⟨fuel, hfuel⟩ : ∃ k, text.length = k + 1 := ⟨text.length - 1, by omega⟩
  have hothers : statements fuel rest = listing rest :=
    statements_congr (by omega) (Nat.le_refl _)
  rw [listing, hfuel, statements, h]
  simp only [hothers]

end Statements

end Reader

end GrammarKit
