import GrammarKit.Proofs.Lexer.Reading
import GrammarKit.Proofs.Recognizer.Outcome
import GrammarKit.Proofs.Regex.Matching

/-!
This module contains the laws of the domain of tokens, and what the rules of a lexer evaluate to:
the rule that ties the others together yields the token of the only match, and fails where it stands
if there is no such match.
-/

namespace GrammarKit

open Recognizer Token

namespace Cursor

theorem foldl_advance (tokens : List Token) (rest : List Char) (loc : Location)
    : tokens.foldl (fun (cursor : Cursor) t => cursor.advance t.value.toList)
        ⟨⟨textOf tokens ++ rest⟩, loc⟩ =
          ⟨⟨rest⟩, loc.advance (textOf tokens)⟩ := by
  induction tokens generalizing loc with
  | nil => rfl
  | cons t tokens ih =>
    rw [List.foldl_cons, textOf_cons, List.append_assoc]
    have hfirst := advance_append t.chars (textOf tokens ++ rest) loc
    rw [chars] at hfirst
    rw [chars, hfirst, ih, Location.advance_append]

end Cursor

theorem Failure.aggregateBy_latest_location {errors : List Failure} {loc : Location}
    (hne : errors ≠ []) (h : ∀ e ∈ errors, e.location = some loc)
    : (aggregateBy Furthest.latest.choose errors).location = some loc := by
  have hlocs : errors.filterMap Failure.location = List.replicate errors.length loc := by
    rw [List.eq_replicate_iff]
    constructor
    · rw [List.length_filterMap_eq_countP, List.countP_eq_length]
      intro e he
      simp [h e he]
    · intro loc' hloc'
      obtain ⟨e, he, heq⟩ := List.mem_filterMap.mp hloc'
      exact Option.some.inj (heq.symm.trans (h e he))
  have hlength : errors.length ≠ 0 := by simpa using hne
  have hempty : errors.isEmpty = false := by simpa using hne
  have : Std.IdempotentOp (max : Location → Location → Location) := ⟨fun loc => by simp [max]⟩
  simp only [aggregateBy, hempty, Bool.false_eq_true, ↓reduceIte, hlocs, Furthest.choose,
    List.max?_replicate, hlength]

namespace Lexer

theorem scan_yields {r : Regex} {cursor : Cursor} {tokens : List Token}
    : (scan r cursor).Yields tokens ↔
        ∃ text, text ≠ [] ∧ (r.matchAt cursor.position).run = some (.ok text) ∧
          tokens = [⟨"", String.ofList text, cursor.location, true⟩] := by
  unfold scan Run.ofEventually
  match (r.matchAt cursor.position).run with
  | none => simp [Run.attempt]
  | some (.error e) => simp [Run.attempt, Run.andThen]
  | some (.ok []) => simp [Run.attempt, Run.andThen]
  | some (.ok (c :: text)) => simp [Run.attempt, Run.andThen, eq_comm]

theorem scan_failsWith {r : Regex} {cursor : Cursor} {e : Failure}
    (h : (scan r cursor).FailsWith e)
    : e.location = some cursor.location := by
  unfold scan Run.ofEventually at h
  match (r.matchAt cursor.position).run, h with
  | none, h => simp [Run.attempt] at h
  | some (.error _), h =>
    simp only [Run.attempt, Run.bind_eq, Run.andThen, Run.after_failsWith, Run.fail_failsWith] at h
    rw [← h]
  | some (.ok []), h =>
    simp only [Run.attempt, Run.bind_eq, Run.andThen, Run.after_failsWith, Run.fail_failsWith] at h
    rw [← h]
  | some (.ok (c :: text)), h => simp [Run.attempt, Run.andThen] at h

theorem scan_settles {r : Regex} {cursor : Cursor} (h : r.Terminates cursor.position)
    : (scan r cursor).Settles := by
  rw [Regex.terminates_iff, ← Classical.not_not (a := (Regex.eval _ _ _).Settles),
    ← Regex.matchAt_run_eq_none] at h
  unfold scan Run.ofEventually
  match hrun : (r.matchAt cursor.position).run with
  | none => exact absurd hrun h
  | some (.error e) => simp [Run.attempt, Run.andThen]
  | some (.ok []) => simp [Run.attempt, Run.andThen]
  | some (.ok (c :: text)) => simp [Run.attempt, Run.andThen]

theorem row_textOf_prefix {rules : Table TokenRule} {cursor : Cursor} {outputs : List (List Token)}
    (h : Row (domain rules) (fun cursor tokens => textOf tokens <+: cursor.position.rest) cursor
      outputs)
    : textOf outputs.flatten <+: cursor.position.rest := by
  induction h with
  | nil => exact List.nil_prefix
  | @cons cursor tokens outputs first _ ih =>
    obtain ⟨⟨chars⟩, loc⟩ := cursor
    obtain ⟨rest, rfl⟩ := first
    rw [List.flatten_cons, textOf_append, List.prefix_append_right_inj]
    have hadvance : (domain rules).advance ⟨⟨textOf tokens ++ rest⟩, loc⟩ tokens =
        ⟨⟨rest⟩, loc.advance (textOf tokens)⟩ := Cursor.foldl_advance tokens rest loc
    rwa [hadvance] at ih

instance (rules : Table TokenRule) : Domain.Lawful (domain rules) where
  inner _ := []
  depth_inner h := by simp at h
  atom_le _ := Run.le_refl _
  Fits cursor tokens := textOf tokens <+: cursor.position.rest
  fits_atom {_ r cursor tokens} h := by
    obtain ⟨text, _, hmatch, rfl⟩ := scan_yields.mp h
    simpa [chars] using Regex.matchAt_prefix hmatch
  fits_label {name cursor tokens} h := by
    simp only [domain, label]
    split
    · exact h
    · rw [textOf, List.flatMap_map]
      exact h
  fits_join h := row_textOf_prefix h
  Rest a b := ∃ taken, a.position.rest = taken ++ b.position.rest ∧
    b.location = a.location.advance taken
  rest_refl cursor := ⟨[], rfl, rfl⟩
  rest_trans {a b c} hab hbc := by
    obtain ⟨s, hs, hlocb⟩ := hab
    obtain ⟨t, ht, hlocc⟩ := hbc
    exact ⟨s ++ t, by rw [hs, ht, List.append_assoc],
      by rw [hlocc, hlocb, Location.advance_append]⟩
  rest_advance {cursor tokens} h := by
    obtain ⟨⟨chars⟩, loc⟩ := cursor
    obtain ⟨rest, rfl⟩ := h
    refine ⟨textOf tokens, ?_⟩
    have hadvance : (domain rules).advance ⟨⟨textOf tokens ++ rest⟩, loc⟩ tokens =
        ⟨⟨rest⟩, loc.advance (textOf tokens)⟩ := Cursor.foldl_advance tokens rest loc
    rw [hadvance]
    exact ⟨rfl, rfl⟩
  size_le {a b} h := by
    obtain ⟨taken, htaken, _⟩ := h
    simp [domain, htaken]
  eq_of_size_eq {a b c} hb hc hsize := by
    obtain ⟨s, hs, hlocb⟩ := hb
    obtain ⟨t, ht, hlocc⟩ := hc
    obtain ⟨⟨brest⟩, bloc⟩ := b
    obtain ⟨⟨crest⟩, cloc⟩ := c
    simp only [domain] at hs ht hsize hlocb hlocc
    obtain ⟨rfl, rfl⟩ := List.append_inj' (hs.symm.trans ht) hsize
    rw [hlocb, hlocc]

variable (lexer : Lexer)

instance : Domain.Lawful lexer.recognizer.domain :=
  inferInstanceAs (Domain.Lawful (domain lexer.rules))

def anyRule : Rule Regex := .alt (lexer.rules.names.map .ref)

variable {lexer}

theorem get?_root
    : lexer.recognizer.rules.get? lexer.recognizer.root = some (.untilEmpty lexer.anyRule) :=
  Table.get?_set_self _ _ _

theorem get?_name {name : String} {rule : TokenRule} (h : lexer.rules.get? name = some rule)
    : lexer.recognizer.rules.get? name = some (.atom rule.regex) := by
  have hne : name ≠ rootName := by
    rintro rfl
    rw [lexer.root_free] at h
    cases h
  simp only [recognizer, Table.get?_set, hne, ↓reduceIte, Table.get?_map, h, Option.map_some]

theorem mem_visible_iff {name : String} {rule : TokenRule}
    (h : lexer.rules.get? name = some rule)
    : name ∈ lexer.visible ↔ (!rule.silent) = true := by
  rw [visible, Table.mem_names_filter_iff, h]
  simp

theorem mem_names_iff_regex? {name : String}
    : name ∈ lexer.rules.names ↔ ∃ r, lexer.regex? name = some r := by
  simp [Table.mem_names_iff, regex?]

theorem eval_regex (r : Regex) (cursor : Cursor)
    : lexer.recognizer.eval (.atom r) cursor = scan r cursor :=
  lexer.recognizer.eval_atom r cursor

theorem label_token {name text : String} {rule : TokenRule} {loc : Location}
    (h : lexer.rules.get? name = some rule)
    : label lexer.rules name [⟨"", text, loc, true⟩] = [⟨name, text, loc, !rule.silent⟩] := by
  simp [label, h]

theorem eval_name_yields {name : String} {rule : TokenRule} {cursor : Cursor}
    {tokens : List Token} (h : lexer.rules.get? name = some rule)
    : (lexer.recognizer.eval (.ref name) cursor).Yields tokens ↔
        ∃ text, lexer.Matches cursor.position.rest name text ∧
          tokens = [⟨name, String.ofList text, cursor.location, !rule.silent⟩] := by
  have hr : lexer.regex? name = some rule.regex := by simp [regex?, h]
  rw [eval_ref_yields]
  constructor
  · rintro ⟨body, inner, hbody, hinner, rfl⟩
    rw [get?_name h] at hbody
    cases hbody
    rw [eval_regex, scan_yields] at hinner
    obtain ⟨text, hne, hmatch, rfl⟩ := hinner
    refine ⟨text, ⟨_, hr, hne, Regex.matchAt_prefix hmatch, hmatch⟩, ?_⟩
    exact (List.append_nil _).trans (label_token h)
  · rintro ⟨text, ⟨r, hr', hne, _, hmatch⟩, rfl⟩
    rw [hr] at hr'
    cases hr'
    refine ⟨_, _, get?_name h, ?_, (List.append_nil _).trans (label_token h)⟩
    rw [eval_regex, scan_yields]
    exact ⟨text, hne, hmatch, rfl⟩

theorem Matches.mem_names {text value : List Char} {name : String}
    (h : lexer.Matches text name value)
    : name ∈ lexer.rules.names := by
  obtain ⟨r, hr, _⟩ := h
  exact mem_names_iff_regex?.mpr ⟨r, hr⟩

theorem Matches.yields {text value : List Char} {name : String}
    (h : lexer.Matches text name value) (loc : Location)
    : ∃ tokens, (lexer.recognizer.eval (.ref name) ⟨⟨text⟩, loc⟩).Yields tokens := by
  obtain ⟨rule, hrule⟩ := Table.mem_names_iff.mp h.mem_names
  exact ⟨_, (eval_name_yields hrule).mpr ⟨value, h, rfl⟩⟩

theorem Starts.eq_token {loc : Location} {text rest : List Char} {t : Token} {rule : TokenRule}
    (h : lexer.Starts loc text t rest) (hrule : lexer.rules.get? t.kind = some rule)
    : t = ⟨t.kind, String.ofList t.chars, loc, !rule.silent⟩ := by
  have hvisible := h.visible.trans (mem_visible_iff hrule)
  rw [← Bool.eq_iff_iff.mpr hvisible, ← h.located]
  simp [chars]

theorem eval_name_failsWith {name : String} {rule : TokenRule} {cursor : Cursor} {e : Failure}
    (h : lexer.rules.get? name = some rule)
    (he : (lexer.recognizer.eval (.ref name) cursor).FailsWith e)
    : e.location = some cursor.location := by
  rcases eval_ref_failsWith.mp he with ⟨hnone, _⟩ | ⟨body, hbody, inner, hinner, heq⟩
  · rw [get?_name h] at hnone
    cases hnone
  · rw [get?_name h, Option.some.injEq] at hbody
    rw [← hbody, eval_regex] at hinner
    rw [heq]
    exact inRule_location (scan_failsWith hinner)

theorem eval_name_settles {name : String} {r : Regex} {cursor : Cursor}
    (h : lexer.regex? name = some r) (hterm : r.Terminates cursor.position)
    : (lexer.recognizer.eval (.ref name) cursor).Settles := by
  obtain ⟨rule, hrule, rfl⟩ := Option.map_eq_some_iff.mp h
  apply eval_ref_settles
  intro body hbody
  rw [get?_name hrule] at hbody
  cases hbody
  rw [eval_regex]
  exact scan_settles hterm

section Any

variable {text : List Char} {loc : Location}
variable (hterm : ∀ name r, lexer.regex? name = some r → r.Terminates ⟨text⟩)

include hterm in
theorem eval_any_settles : (lexer.recognizer.eval lexer.anyRule ⟨⟨text⟩, loc⟩).Settles := by
  rw [anyRule, eval_alt_settles]
  intro rule hrule
  obtain ⟨name, hname, rfl⟩ := List.mem_map.mp hrule
  obtain ⟨r, hr⟩ := mem_names_iff_regex?.mp hname
  exact eval_name_settles hr (hterm name r hr)

include hterm in
theorem eval_name_fails {name : String} (hname : name ∈ lexer.rules.names)
    (hno : ∀ value, ¬ lexer.Matches text name value)
    : (lexer.recognizer.eval (.ref name) ⟨⟨text⟩, loc⟩).Fails := by
  obtain ⟨r, hr⟩ := mem_names_iff_regex?.mp hname
  obtain ⟨rule, hrule, rfl⟩ := Option.map_eq_some_iff.mp hr
  have hsettles : (lexer.recognizer.eval (.ref name) ⟨⟨text⟩, loc⟩).Settles :=
    eval_name_settles hr (hterm name _ hr)
  rcases (Run.settles_iff _).mp hsettles with ⟨tokens, h⟩ | h
  · obtain ⟨value, hmatch, _⟩ := (eval_name_yields hrule).mp h
    exact absurd hmatch (hno value)
  · exact h

/-- What is yielded is the token of the only match, even where other regexes might not come to an end. -/
theorem starts_of_eval_any {tokens : List Token}
    (h : (lexer.recognizer.eval lexer.anyRule ⟨⟨text⟩, loc⟩).Yields tokens)
    : ∃ t rest, lexer.Starts loc text t rest ∧ tokens = [t] := by
  rw [anyRule, eval_alt_refs_yields (Table.names_nodup lexer.rules)] at h
  obtain ⟨name, hname, hfails, hyields⟩ := h
  obtain ⟨rule, hrule⟩ := Table.mem_names_iff.mp hname
  obtain ⟨value, hmatch, rfl⟩ := (eval_name_yields hrule).mp hyields
  have honly : lexer.OnlyMatch text name value := by
    refine ⟨hmatch, fun other value' hother => ?_⟩
    -- another rule that matches would yield its token, but all others fail
    obtain ⟨tokens', hyields'⟩ := hother.yields loc
    by_contra hne
    exact hyields'.not_fails (hfails other hother.mem_names hne)
  obtain ⟨rest, hstarts⟩ := honly.starts loc (mem_visible_iff hrule).symm
  exact ⟨_, rest, hstarts, rfl⟩

include hterm in
theorem eval_any_yields {tokens : List Token}
    : (lexer.recognizer.eval lexer.anyRule ⟨⟨text⟩, loc⟩).Yields tokens ↔
        ∃ t rest, lexer.Starts loc text t rest ∧ tokens = [t] := by
  refine ⟨starts_of_eval_any, ?_⟩
  rintro ⟨t, rest, hstarts, rfl⟩
  obtain ⟨rule, hrule⟩ := Table.mem_names_iff.mp hstarts.only.1.mem_names
  rw [anyRule, eval_alt_refs_yields (Table.names_nodup lexer.rules)]
  refine ⟨t.kind, hstarts.only.1.mem_names, fun other hother hne => ?_, ?_⟩
  · exact eval_name_fails hterm hother fun value' h => hne (hstarts.only.2 other value' h)
  · rw [eval_name_yields hrule]
    exact ⟨t.chars, hstarts.only.1, congrArg (fun t => [t]) (hstarts.eq_token hrule)⟩

/-- Without any rules there is no failure to tell where. -/
theorem eval_any_failsWith {e : Failure}
    (he : (lexer.recognizer.eval lexer.anyRule ⟨⟨text⟩, loc⟩).FailsWith e)
    : e.location = some loc ∨ (lexer.rules.names = [] ∧ e.location = none) := by
  rw [anyRule, eval_alt_failsWith] at he
  obtain ⟨rs, hrs, he⟩ := he
  have hlength := hrs.length_eq
  rw [List.length_map] at hlength
  rcases choose_failsWith.mp he with ⟨hnone, rfl⟩ | ⟨_, rfl⟩
  · match rs, hnone with
    | [], _ => exact .inr ⟨List.length_eq_zero_iff.mp hlength, rfl⟩
    | .error e :: rs, _ =>
      -- every rule fails right here, so this is where their failures put together are
      refine .inl (Failure.aggregateBy_latest_location (by simp [failures]) fun e' he' => ?_)
      obtain ⟨rule, hrule, hyields⟩ := results_mem (results_yields.mpr hrs) (mem_failures.mp he')
      obtain ⟨name, hname, rfl⟩ := List.mem_map.mp hrule
      obtain ⟨rule, hrule⟩ := Table.mem_names_iff.mp hname
      exact eval_name_failsWith hrule ((Run.attempt_yields_error _ _).mp hyields)
  · exact .inl rfl

end Any

end Lexer

end GrammarKit
