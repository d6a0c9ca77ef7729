import GrammarKit.Proofs.Parser.Derivation
import GrammarKit.Proofs.Parser.Lookahead
import GrammarKit.Proofs.Recognizer.Ambiguity

/-!
This module contains what the check of lookahead is good for: a parser that passes it comes to an
end, is never in doubt between alternatives, and finds exactly the derivations of its root.
-/

namespace GrammarKit

open Recognizer Domain Rule Node

namespace Parser

theorem nullableAlt_of_mem {rule : Rule String} {rules : List (Rule String)} (hmem : rule ∈ rules)
    (h : nullable rule = true)
    : nullableAlt rules = true := by
  induction rules with
  | nil => cases hmem
  | cons first rules ih =>
    rw [nullableAlt, Bool.or_eq_true]
    rcases List.mem_cons.mp hmem with rfl | hmem
    · exact .inl h
    · exact .inr (ih hmem)

theorem headsAlt_of_mem {atom ref : String → List String} {rule : Rule String}
    {rules : List (Rule String)} (hmem : rule ∈ rules) {name : String}
    (h : name ∈ heads atom ref rule)
    : name ∈ headsAlt atom ref rules := by
  induction rules with
  | nil => cases hmem
  | cons first rules ih =>
    rw [headsAlt, List.mem_append]
    rcases List.mem_cons.mp hmem with rfl | hmem
    · exact .inl h
    · exact .inr (ih hmem)

theorem mem_heads_of_leads {inner : String → List (Rule String)} (hinner : ∀ a, inner a = [])
    {rule : Rule String} {name : String}
    (h : Leads inner (fun rule => nullable rule = true) rule name)
    : name ∈ heads (fun _ => []) (fun other => [other]) rule := by
  induction h with
  | atom hpart _ _ => simp [hinner] at hpart
  | ref => simp [heads]
  | seqHead _ ih =>
    rw [heads, headsSeq, List.mem_append]
    exact .inl ih
  | seqTail hnull _ ih =>
    rw [heads, headsSeq, List.mem_append, if_pos hnull]
    exact .inr ih
  | alt hmem _ ih => exact headsAlt_of_mem hmem ih
  | star _ ih | plus _ ih | opt _ ih | untilEmpty _ ih => exact ih

namespace Lookahead

variable {look : Lookahead}

theorem not_mem_of_disjoint {kinds others : List String} (h : disjoint kinds others = true)
    {kind : String} (hkind : kind ∈ kinds)
    : kind ∉ others := by
  have := List.all_eq_true.mp h kind hkind
  simpa using this

structure Knows (look : Lookahead) (name : String) (body : Rule String) : Prop where
  not_nullable : nullable body = false
  first : ∀ kind ∈ look.firsts body, kind ∈ look.first name
  predicts : look.predicts (look.follow name) body = true
  rank : ∀ other ∈ heads (fun _ => []) (fun other => [other]) body, look.rank other < look.rank name

theorem knows_of_check {rules : Table (Rule String)} (h : look.check rules = true) {name : String}
    {body : Rule String} (hget : rules.get? name = some body)
    : look.Knows name body := by
  have hentry := List.all_eq_true.mp h _ (Table.mem_entries_iff.mpr hget)
  simp only [checkRule, Bool.and_eq_true, Bool.not_eq_true', List.all_eq_true,
    List.contains_iff_mem, decide_eq_true_eq] at hentry
  obtain ⟨⟨⟨hnull, hfirst⟩, hpredicts⟩, hrank⟩ := hentry
  exact ⟨hnull, hfirst, hpredicts, hrank⟩

section Parts

variable {behind : List String}

theorem predictsSeq_of_mem {rules : List (Rule String)} (h : look.predictsSeq behind rules = true)
    {rule : Rule String} (hmem : rule ∈ rules)
    : ∃ behind', look.predicts behind' rule = true := by
  induction rules with
  | nil => cases hmem
  | cons first rules ih =>
    rw [predictsSeq, Bool.and_eq_true] at h
    rcases List.mem_cons.mp hmem with rfl | hmem
    · exact ⟨_, h.1⟩
    · exact ih h.2 hmem

theorem predictsAlt_cons {rule : Rule String} {rules : List (Rule String)}
    : look.predictsAlt behind (rule :: rules) = true ↔
        nullable rule = false ∧ disjoint (look.firsts rule) (look.firstsAlt rules) = true ∧
          look.predicts behind rule = true ∧ look.predictsAlt behind rules = true := by
  simp [predictsAlt, and_assoc]

theorem predictsAlt_of_mem {rules : List (Rule String)} (h : look.predictsAlt behind rules = true)
    {rule : Rule String} (hmem : rule ∈ rules)
    : nullable rule = false ∧ look.predicts behind rule = true := by
  induction rules with
  | nil => cases hmem
  | cons first rules ih =>
    obtain ⟨hnull, _, hfirst, hrest⟩ := predictsAlt_cons.mp h
    rcases List.mem_cons.mp hmem with rfl | hmem
    · exact ⟨hnull, hfirst⟩
    · exact ih hrest hmem

theorem predicts_star {rule : Rule String}
    : look.predicts behind (.star rule) = true ↔
        nullable rule = false ∧ disjoint (look.firsts rule) behind = true ∧
          look.predicts (look.firsts rule ++ behind) rule = true := by
  simp [predicts, and_assoc]

theorem predicts_plus {rule : Rule String}
    : look.predicts behind (.plus rule) = look.predicts behind (.star rule) := by
  simp [predicts]

theorem predicts_opt {rule : Rule String}
    : look.predicts behind (.opt rule) = true ↔
        nullable rule = false ∧ disjoint (look.firsts rule) behind = true ∧
          look.predicts behind rule = true := by
  simp [predicts, and_assoc]

theorem predicts_part {inner : String → List (Rule String)} (hinner : ∀ a, inner a = [])
    {part rule : Rule String} (hpart : part ∈ rule.parts inner)
    (h : look.predicts behind rule = true)
    : ∃ behind', look.predicts behind' part = true := by
  cases rule with
  | atom a => simp [parts, hinner] at hpart
  | ref name => simp [parts] at hpart
  | seq rules => exact predictsSeq_of_mem (by rwa [predicts] at h) hpart
  | alt rules => exact ⟨_, (predictsAlt_of_mem (by rwa [predicts] at h) hpart).2⟩
  | star rule =>
    obtain rfl := List.mem_singleton.mp hpart
    exact ⟨_, (predicts_star.mp h).2.2⟩
  | plus rule =>
    obtain rfl := List.mem_singleton.mp hpart
    rw [predicts_plus] at h
    exact ⟨_, (predicts_star.mp h).2.2⟩
  | opt rule =>
    obtain rfl := List.mem_singleton.mp hpart
    exact ⟨_, (predicts_opt.mp h).2.2⟩
  | untilEmpty rule => simp [predicts] at h

theorem predicts_of_occurs {inner : String → List (Rule String)} (hinner : ∀ a, inner a = [])
    {sub rule : Rule String} (hoccurs : Occurs inner sub rule)
    (h : look.predicts behind rule = true)
    : ∃ behind', look.predicts behind' sub = true := by
  induction hoccurs generalizing behind with
  | here => exact ⟨behind, h⟩
  | inside hpart _ ih =>
    obtain ⟨behind', h'⟩ := predicts_part hinner hpart h
    exact ih h'

theorem productive_of_predicts {inner : String → List (Rule String)} (hinner : ∀ a, inner a = [])
    {rule : Rule String} (h : look.predicts behind rule = true)
    : Productive inner (fun rule => nullable rule = true) rule := by
  intro body hbody
  have hstar : ∃ behind', look.predicts behind' (.star body) = true := by
    rcases hbody with hoccurs | hoccurs | hoccurs
    · exact predicts_of_occurs hinner hoccurs h
    · simpa only [predicts_plus] using predicts_of_occurs hinner hoccurs h
    · obtain ⟨behind', h'⟩ := predicts_of_occurs hinner hoccurs h
      simp [predicts] at h'
  obtain ⟨behind', h'⟩ := hstar
  simp [(predicts_star.mp h').1]

end Parts

end Lookahead

section Derivations

variable {rules : Table (Rule String)} {look : Lookahead} (hcheck : look.check rules = true)

include hcheck in
theorem Derives.nullable_of_nil {rule : Rule String} {ns : List Node} (h : Derives rules rule ns)
    (hnil : tokensAll ns = [])
    : nullable rule = true := by
  induction h with
  | atom _ => simp at hnil
  | ref hget _ ih =>
    have hbody : nullable _ = true := ih (by simpa using hnil)
    rw [(Lookahead.knows_of_check hcheck hget).not_nullable] at hbody
    cases hbody
  | seqNil => rfl
  | seqCons _ _ ihfirst ihothers =>
    rw [tokensAll_append, List.append_eq_nil_iff] at hnil
    rw [nullable, nullableSeq, ihfirst hnil.1]
    exact ihothers hnil.2
  | alt hmem _ ih => exact nullableAlt_of_mem hmem (ih hnil)
  | plus _ _ ih _ =>
    rw [tokensAll_append, List.append_eq_nil_iff] at hnil
    exact ih hnil.1
  | starNil | starCons _ _ _ _ | optNone | optSome _ _ | untilEmpty _ _ => rfl

include hcheck in
theorem Derives.head_mem_firsts {rule : Rule String} {ns : List Node} (h : Derives rules rule ns)
    {t : Token} {rest : List Token} (htokens : tokensAll ns = t :: rest)
    : t.kind ∈ look.firsts rule := by
  induction h generalizing rest with
  | @atom kind t' hkind =>
    have ht : t' = t := by simpa [tokensAll] using (List.cons.inj htokens).1
    simp [Lookahead.firsts, heads, ← hkind, ht]
  | ref hget _ ih =>
    exact (Lookahead.knows_of_check hcheck hget).first _
      (ih (by simpa using htokens))
  | seqNil | starNil | optNone => simp [tokensAll] at htokens
  | @seqCons rule others ns ms hfirst hothers ihfirst ihothers =>
    rw [tokensAll_append] at htokens
    rw [Lookahead.firsts, heads, headsSeq, List.mem_append]
    rcases List.append_eq_cons_iff.mp htokens with ⟨hns, hms⟩ | ⟨ts, hns, _⟩
    · rw [if_pos (hfirst.nullable_of_nil hcheck hns)]
      exact .inr (ihothers hms)
    · exact .inl (ihfirst hns)
  | alt hmem _ ih => exact headsAlt_of_mem hmem (ih htokens)
  | @starCons rule ns ms _ _ ihfirst ihothers | @plus rule ns ms _ _ ihfirst ihothers =>
    rw [tokensAll_append] at htokens
    rcases List.append_eq_cons_iff.mp htokens with ⟨_, hms⟩ | ⟨ts, hns, _⟩
    · exact ihothers hms
    · exact ihfirst hns
  | optSome _ ih => exact ih htokens
  | untilEmpty _ ih => exact ih htokens

end Derivations

section Evaluation

variable {p : Parser} {look : Lookahead} (hcheck : look.check p.rules = true)

theorem eval_derives {rule : Rule String} {tokens : List Token} {n : Node}
    (h : (p.recognizer.eval rule tokens).Yields n)
    : Derives p.rules rule (splice n) ∧ tokensAll (splice n) <+: tokens := by
  refine ⟨closed_derives.eval h, ?_⟩
  rw [tokensAll_splice]
  exact p.recognizer.eval_fits rule tokens n h

include hcheck in
theorem descending
    : p.recognizer.Descending (fun rule => nullable rule = true) look.rank where
  atom kind tokens _ := take_settles kind tokens
  takes rule tokens n hyields hnull := by
    obtain ⟨hderives, hpre⟩ := eval_derives hyields
    have hne : n.tokens ≠ [] := by
      rw [← tokensAll_splice]
      exact fun hnil => hnull (hderives.nullable_of_nil hcheck hnil)
    have hpos : 0 < n.size := List.length_pos_iff.mpr hne
    have hle : n.size ≤ tokens.length := by
      rw [tokensAll_splice] at hpre
      exact hpre.length_le
    show (tokens.drop n.size).length < tokens.length
    rw [List.length_drop]
    omega
  productive name body hbody :=
    Lookahead.productive_of_predicts (fun _ => rfl) (Lookahead.knows_of_check hcheck hbody).predicts
  descends name body hbody other hleads :=
    (Lookahead.knows_of_check hcheck hbody).rank other (mem_heads_of_leads (fun _ => rfl) hleads)

variable {behind : List String}

include hcheck in
theorem eval_settles {rule : Rule String} (hpredicts : look.predicts behind rule = true)
    (tokens : List Token)
    : (p.recognizer.eval rule tokens).Settles :=
  (descending hcheck).eval_settles
    (Lookahead.productive_of_predicts (fun _ => rfl) hpredicts) tokens

include hcheck in
theorem eval_head {rule : Rule String} (hnull : nullable rule = false) {tokens : List Token}
    {n : Node} (h : (p.recognizer.eval rule tokens).Yields n)
    : ∃ t rest, tokens = t :: rest ∧ t.kind ∈ look.firsts rule := by
  obtain ⟨hderives, rest, hrest⟩ := eval_derives h
  cases hfirst : tokensAll (splice n) with
  | nil =>
    have := hderives.nullable_of_nil hcheck hfirst
    rw [hnull] at this
    cases this
  | cons t ts =>
    rw [hfirst, List.cons_append] at hrest
    exact ⟨t, ts ++ rest, hrest.symm, hderives.head_mem_firsts hcheck hfirst⟩

include hcheck in
/-- A rule fails at once, where no derivation of it can start with the next token. -/
theorem eval_fails {rule : Rule String} (hpredicts : look.predicts behind rule = true)
    (hnull : nullable rule = false) {tokens : List Token}
    (hhead : ∀ t, tokens.head? = some t → t.kind ∉ look.firsts rule)
    : (p.recognizer.eval rule tokens).Fails := by
  rcases (Run.settles_iff _).mp (eval_settles hcheck hpredicts tokens) with ⟨n, hyields⟩ | hfails
  · obtain ⟨t, rest, rfl, hkind⟩ := eval_head hcheck hnull hyields
    exact absurd hkind (hhead t rfl)
  · exact hfails

include hcheck in
theorem exclusive_of_predictsAlt {choices : List (Rule String)}
    (h : look.predictsAlt behind choices = true)
    : p.recognizer.Exclusive choices := by
  induction choices with
  | nil => exact .nil
  | cons rule choices ih =>
    obtain ⟨hnull, hdisjoint, _, hrest⟩ := Lookahead.predictsAlt_cons.mp h
    refine List.pairwise_cons.mpr ⟨fun other hother tokens x y hx hy => ?_, ih hrest⟩
    -- both derivations would start with the first of the tokens
    obtain ⟨t, ts, rfl, hfirst⟩ := eval_head hcheck hnull hx
    obtain ⟨t', ts', heq, hsecond⟩ :=
      eval_head hcheck (Lookahead.predictsAlt_of_mem hrest hother).1 hy
    rw [← (List.cons.inj heq).1] at hsecond
    exact Lookahead.not_mem_of_disjoint hdisjoint hfirst (headsAlt_of_mem hother hsecond)

include hcheck in
theorem unambiguous : p.recognizer.Unambiguous := by
  apply unambiguous_of_exclusive
  intro name body choices hbody hoccurs
  obtain ⟨behind, h⟩ := Lookahead.predicts_of_occurs (fun _ => rfl) hoccurs
    (Lookahead.knows_of_check hcheck hbody).predicts
  rw [Lookahead.predicts] at h
  exact exclusive_of_predictsAlt hcheck h

/-- Nothing follows, or a token that may. -/
def Follows (behind : List String) (rest : List Token) : Prop :=
  ∀ t, rest.head? = some t → t.kind ∈ behind

theorem Follows.mono {behind behind' : List String} {rest : List Token} (h : Follows behind rest)
    (hsub : ∀ kind ∈ behind, kind ∈ behind')
    : Follows behind' rest :=
  fun t ht => hsub _ (h t ht)

include hcheck in
/-- What may follow a rule in front of a derivation of another one. -/
theorem follows_append {rule : Rule String} {ns : List Node} (h : Derives p.rules rule ns)
    {rest : List Token} (hrest : Follows behind rest)
    : Follows (look.firsts rule ++ if nullable rule then behind else []) (tokensAll ns ++ rest) := by
  intro t ht
  rw [List.mem_append]
  cases hns : tokensAll ns with
  | nil =>
    rw [hns, List.nil_append] at ht
    rw [if_pos (h.nullable_of_nil hcheck hns)]
    exact .inr (hrest t ht)
  | cons t' ts =>
    rw [hns, List.cons_append, List.head?_cons, Option.some.injEq] at ht
    rw [ht] at hns
    exact .inl (h.head_mem_firsts hcheck hns)

theorem not_mem_of_follows {kinds : List String} {rest : List Token}
    (hdisjoint : Lookahead.disjoint kinds behind = true) (h : Follows behind rest)
    : ∀ t, rest.head? = some t → t.kind ∉ kinds :=
  fun t ht hkind => Lookahead.not_mem_of_disjoint hdisjoint hkind (h t ht)

theorem advance_append {ns : List Node} {n : Node} (h : splice n = ns) (rest : List Token)
    : p.recognizer.domain.advance (tokensAll ns ++ rest) n = rest := by
  rw [← h, tokensAll_splice]
  show (n.tokens ++ rest).drop n.size = rest
  simp [Node.size]

/-- The rule yields the nodes, and leaves the rest. -/
def Finds (p : Parser) (rule : Rule String) (ns : List Node) (rest : List Token) : Prop :=
  ∃ n, (p.recognizer.eval rule (tokensAll ns ++ rest)).Yields n ∧ splice n = ns

theorem finds_star_nil {rule : Rule String} {rest : List Token}
    (h : (p.recognizer.eval rule rest).Fails)
    : p.Finds (.star rule) [] rest :=
  ⟨join [], eval_star_yields.mpr ⟨[], loop_yields.mpr (.inr ⟨h, rfl⟩), rfl⟩, rfl⟩

theorem finds_star_cons {rule : Rule String} {ns ms : List Node} {rest : List Token}
    (hfirst : p.Finds rule ns (tokensAll ms ++ rest)) (hothers : p.Finds (.star rule) ms rest)
    : p.Finds (.star rule) (ns ++ ms) rest := by
  obtain ⟨n, hn, rfl⟩ := hfirst
  obtain ⟨others, hothers, rfl⟩ := hothers
  obtain ⟨outputs, hloop, rfl⟩ := eval_star_yields.mp hothers
  refine ⟨join (n :: outputs), eval_star_yields.mpr ⟨n :: outputs, ?_, rfl⟩, rfl⟩
  rw [tokensAll_append, List.append_assoc]
  refine loop_yields.mpr (.inl ⟨n, outputs, hn, ?_, rfl⟩)
  rw [advance_append rfl]
  exact hloop

theorem finds_plus {rule : Rule String} {ns ms : List Node} {rest : List Token}
    (hfirst : p.Finds rule ns (tokensAll ms ++ rest)) (hothers : p.Finds (.star rule) ms rest)
    : p.Finds (.plus rule) (ns ++ ms) rest := by
  obtain ⟨n, hn, rfl⟩ := hfirst
  obtain ⟨others, hothers, rfl⟩ := hothers
  obtain ⟨outputs, hloop, rfl⟩ := eval_star_yields.mp hothers
  refine ⟨join (n :: outputs), eval_plus_yields.mpr ⟨n, outputs, ?_, ?_, rfl⟩, rfl⟩
  · rw [tokensAll_append, List.append_assoc]
    exact hn
  · rw [tokensAll_append, List.append_assoc, advance_append rfl]
    exact hloop

theorem finds_seq_cons {rule : Rule String} {rules : List (Rule String)} {ns ms : List Node}
    {rest : List Token} (hfirst : p.Finds rule ns (tokensAll ms ++ rest))
    (hothers : p.Finds (.seq rules) ms rest)
    : p.Finds (.seq (rule :: rules)) (ns ++ ms) rest := by
  obtain ⟨n, hn, rfl⟩ := hfirst
  obtain ⟨others, hothers, rfl⟩ := hothers
  obtain ⟨outputs, hsequence, rfl⟩ := eval_seq_yields.mp hothers
  refine ⟨join (n :: outputs), eval_seq_yields.mpr ⟨n :: outputs, ?_, rfl⟩, rfl⟩
  rw [tokensAll_append, List.append_assoc]
  refine sequence_cons_yields.mpr ⟨n, outputs, hn, ?_, rfl⟩
  rw [advance_append rfl]
  exact hsequence

include hcheck in
theorem finds_alt {rule : Rule String} {choices : List (Rule String)} {ns : List Node}
    {rest : List Token} (hpredicts : look.predictsAlt behind choices = true)
    (hmem : rule ∈ choices) (h : p.Finds rule ns rest)
    : p.Finds (.alt choices) ns rest := by
  obtain ⟨n, hn, hns⟩ := h
  refine ⟨n, ?_, hns⟩
  apply (exclusive_of_predictsAlt hcheck hpredicts).eval_alt_yields _ hmem hn
  intro other hother
  exact eval_settles hcheck (Lookahead.predictsAlt_of_mem hpredicts hother).2 _

include hcheck in
theorem Derives.finds {rule : Rule String} {ns : List Node} (h : Derives p.rules rule ns)
    {rest : List Token} (hpredicts : look.predicts behind rule = true)
    (hrest : Follows behind rest)
    : p.Finds rule ns rest := by
  -- on the derivation; what follows a part is what can stand first in the parts behind it, and
  -- where those derive nothing, what follows the whole
  induction h generalizing behind rest with
  | @atom kind t hkind =>
    refine ⟨leaf t, ?_, rfl⟩
    rw [eval_atom]
    exact take_yields.mpr ⟨t, rest, rfl, hkind, rfl⟩
  | @ref name body ns hget _ ih =>
    have hknows := Lookahead.knows_of_check hcheck hget
    rw [Lookahead.predicts, List.all_eq_true] at hpredicts
    have hfollows : Follows (look.follow name) rest :=
      hrest.mono fun kind hkind => by simpa using hpredicts kind hkind
    obtain ⟨n, hn, rfl⟩ := ih hknows.predicts hfollows
    refine ⟨join [label name n], eval_ref_yields.mpr ⟨body, n, hget, ?_, rfl⟩, rfl⟩
    simpa using hn
  | seqNil => exact ⟨join [], eval_seq_yields.mpr ⟨[], (Run.ok_yields _ _).mpr rfl, rfl⟩, rfl⟩
  | seqCons hfirst hothers ihfirst ihothers =>
    rw [Lookahead.predicts, Lookahead.predictsSeq, Bool.and_eq_true] at hpredicts
    exact finds_seq_cons (ihfirst hpredicts.1 (follows_append hcheck hothers hrest))
      (ihothers hpredicts.2 hrest)
  | alt hmem _ ih =>
    rw [Lookahead.predicts] at hpredicts
    exact finds_alt hcheck hpredicts hmem
      (ih (Lookahead.predictsAlt_of_mem hpredicts hmem).2 hrest)
  | starNil =>
    -- what follows can not start another round, so the repetition stops here
    obtain ⟨hnull, hdisjoint, hbody⟩ := Lookahead.predicts_star.mp hpredicts
    exact finds_star_nil (eval_fails hcheck hbody hnull (not_mem_of_follows hdisjoint hrest))
  | starCons hfirst hothers ihfirst ihothers =>
    obtain ⟨_, _, hbody⟩ := Lookahead.predicts_star.mp hpredicts
    exact finds_star_cons (ihfirst hbody (follows_append hcheck hothers hrest))
      (ihothers hpredicts hrest)
  | plus hfirst hothers ihfirst ihothers =>
    rw [Lookahead.predicts_plus] at hpredicts
    obtain ⟨_, _, hbody⟩ := Lookahead.predicts_star.mp hpredicts
    exact finds_plus (ihfirst hbody (follows_append hcheck hothers hrest))
      (ihothers hpredicts hrest)
  | optNone =>
    obtain ⟨hnull, hdisjoint, hbody⟩ := Lookahead.predicts_opt.mp hpredicts
    have hfails := eval_fails hcheck hbody hnull (not_mem_of_follows hdisjoint hrest)
    exact ⟨join [], eval_opt_yields.mpr (.inr ⟨hfails, rfl⟩), rfl⟩
  | optSome _ ih =>
    obtain ⟨_, _, hbody⟩ := Lookahead.predicts_opt.mp hpredicts
    obtain ⟨n, hn, hns⟩ := ih hbody hrest
    exact ⟨n, eval_opt_yields.mpr (.inl hn), hns⟩
  | untilEmpty _ _ => simp [Lookahead.predicts] at hpredicts

include hcheck in
theorem parse_settles (tokens : List Token) : (p.parse tokens).run ≠ none := by
  have hsettles : (p.recognizer.run tokens).Settles := by
    rw [run_eq_call]
    apply call_settles
    intro body hbody
    exact eval_settles hcheck (Lookahead.knows_of_check hcheck hbody).predicts tokens
  unfold parse
  match hrun : p.recognizer.run tokens with
  | .unsettled => exact absurd hrun hsettles
  | .settled (.error e) log => simp [ExceptT.run, ExceptT.mk]
  | .settled (.ok n) log => simp [ExceptT.run, ExceptT.mk]

include hcheck in
/-- A parser finds exactly the derivations of its root. -/
theorem parse_iff_derives {tokens : List Token} {node : Node}
    : (p.parse tokens).run = some (.ok node) ↔
        Derives p.rules (.ref p.root) [node] ∧ node.tokens = tokens := by
  rw [parse_eq_ok]
  constructor
  · rintro ⟨hrun, hdrop⟩
    obtain ⟨hpre, body, children, hbody, hderives, rfl⟩ := applyWithin_yields hrun
    exact ⟨.ref hbody hderives, tokens_eq_of_drop hpre hdrop⟩
  · rintro ⟨hderives, rfl⟩
    refine ⟨?_, by simp [Node.size]⟩
    generalize hns : [node] = ns at hderives
    cases hderives with
    | @ref _ body children hget hderives =>
      obtain rfl := (List.cons.inj hns).1
      have hend : Follows (look.follow p.root) [] := fun t ht => by cases ht
      obtain ⟨n, hn, rfl⟩ := hderives.finds hcheck
        (Lookahead.knows_of_check hcheck hget).predicts hend
      rw [run_eq_call, call_yields]
      refine ⟨body, hget, n, ?_, rfl⟩
      simpa using hn

end Evaluation

end Parser

end GrammarKit
