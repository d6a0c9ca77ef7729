import GrammarKit.Proofs.Reduction.Grouping
import GrammarKit.Proofs.Run.Alike

/-!
This module contains what becomes of a tree when the reductions are put in another order: the same
values, or a failure at the same node, the first one that several of them claim.
-/

namespace GrammarKit

namespace Node

mutual

/--
The nodes of a tree, each behind its children.
-/
def postorder : Node → List Node
  | ⟨token, label, children⟩ => postorderAll children ++ [⟨token, label, children⟩]

def postorderAll : List Node → List Node
  | [] => []
  | n :: rest => n.postorder ++ postorderAll rest

end

end Node

open Node

namespace Reducer

variable {α β γ : Type} {rules rules' : List (Reduction α)} {dump : α → String}
variable {n : Node} {nodes more : List Node} {values : List α}

/-- The node is claimed to be each of the values, given what its children come to. -/
def ClaimedAs (rules : List (Reduction α)) (n : Node) (values : List α) : Prop :=
  ∃ inner, reduceTrees rules n.children = .ok inner ∧ claims rules n inner = values

def Contested (rules : List (Reduction α)) (n : Node) : Prop :=
  ∃ values, ClaimedAs rules n values ∧ 2 ≤ values.length

/--
The same results for nodes that are reduced one after the other. None of them is contested, or the
first one that is has stopped both.
-/
inductive Corresponds (rules rules' : List (Reduction α)) (dump : α → String) (nodes : List Node) :
    Except Failure β → Except Failure β → Prop where
  | ok (b : β) (uncontested : ∀ n ∈ nodes, ¬ Contested rules n ∧ ¬ Contested rules' n) :
    Corresponds rules rules' dump nodes (.ok b) (.ok b)
  | ambiguous (before after : List Node) {n : Node} {values values' : List α}
      (split : nodes = before ++ n :: after)
      (uncontested : ∀ m ∈ before, ¬ Contested rules m ∧ ¬ Contested rules' m)
      (claimed : ClaimedAs rules n values) (claimed' : ClaimedAs rules' n values')
      (perm : values.Perm values') (several : 2 ≤ values.length) :
    Corresponds rules rules' dump nodes (.error ((Fault.ambiguous n values).toFailure dump))
      (.error ((Fault.ambiguous n values').toFailure dump))

namespace Corresponds

variable {x y : Except Failure β}

theorem prepend (hnodes : ∀ n ∈ nodes, ¬ Contested rules n ∧ ¬ Contested rules' n)
    (h : Corresponds rules rules' dump more x y)
    : Corresponds rules rules' dump (nodes ++ more) x y := by
  cases h with
  | ok b hmore => exact ok b (List.forall_mem_append.mpr ⟨hnodes, hmore⟩)
  | ambiguous before after split hbefore claimed claimed' perm several =>
    refine ambiguous (nodes ++ before) after ?_ ?_ claimed claimed' perm several
    · rw [split, List.append_assoc]
    · exact List.forall_mem_append.mpr ⟨hnodes, hbefore⟩

theorem bind {f g : β → Except Failure γ} (h : Corresponds rules rules' dump nodes x y)
    (hfg : ∀ b, x = .ok b → y = .ok b → Corresponds rules rules' dump more (f b) (g b))
    : Corresponds rules rules' dump (nodes ++ more) (x >>= f) (y >>= g) := by
  cases h with
  | ok b hnodes => exact (hfg b rfl rfl).prepend hnodes
  | ambiguous before after split hbefore claimed claimed' perm several =>
    -- both have stopped, so that the other nodes are never reached
    refine ambiguous before (after ++ more) ?_ hbefore claimed claimed' perm several
    rw [split, List.append_assoc, List.cons_append]

theorem map (f : β → γ) (h : Corresponds rules rules' dump nodes x y)
    : Corresponds rules rules' dump nodes (x >>= fun b => pure (f b))
        (y >>= fun b => pure (f b)) := by
  rw [← List.append_nil nodes]
  exact h.bind fun b _ _ => ok (f b) (by simp)

theorem agree (h : Corresponds rules rules' dump nodes x y) : Agree Eq x y := by
  cases h with
  | ok b => exact .ok rfl
  | ambiguous => exact .error rfl

theorem ok_iff (h : Corresponds rules rules' dump nodes x y)
    : (∃ b, x = .ok b) ↔ ∀ n ∈ nodes, ¬ Contested rules n := by
  cases h with
  | ok b hnodes => exact ⟨fun _ n hn => (hnodes n hn).1, fun _ => ⟨b, rfl⟩⟩
  | ambiguous before after split _ claimed _ _ several =>
    constructor
    · rintro ⟨b, hb⟩
      cases hb
    · intro hnodes
      exact absurd ⟨_, claimed, several⟩ (hnodes _ (by simp [split]))

end Corresponds

theorem contested_iff {inner : List α} (h : reduceTrees rules n.children = .ok inner)
    : Contested rules n ↔ 2 ≤ (claims rules n inner).length := by
  constructor
  · rintro ⟨values, ⟨other, hother, rfl⟩, hseveral⟩
    rw [h] at hother
    cases hother
    exact hseveral
  · exact fun hseveral => ⟨_, ⟨inner, h, rfl⟩, hseveral⟩

theorem reduceNode_of_several (h : 2 ≤ (claims rules n values).length)
    : reduceNode rules n values = .error (.ambiguous n (claims rules n values)) := by
  unfold reduceNode
  split
  · next hclaims => simp [hclaims] at h
  · next hclaims => simp [hclaims] at h
  · rfl

theorem exists_reduceNode (h : ¬ 2 ≤ (claims rules n values).length)
    : ∃ result, reduceNode rules n values = .ok result := by
  unfold reduceNode
  split
  · exact ⟨values, rfl⟩
  · next value _ => exact ⟨[value], rfl⟩
  · next hnil hsingle =>
    exfalso
    rcases hclaims : claims rules n values with _ | ⟨value, _ | ⟨other, rest⟩⟩
    · exact hnil hclaims
    · exact hsingle value hclaims
    · simp [hclaims] at h

theorem eq_of_perm_of_few {xs ys : List α} (h : xs.Perm ys) (hfew : ¬ 2 ≤ xs.length)
    : xs = ys := by
  rcases xs with _ | ⟨x, _ | ⟨x', rest⟩⟩
  · exact (List.nil_perm.mp h).symm
  · exact List.singleton_perm.mp h
  · simp at hfew

theorem claims_perm (hperm : rules.Perm rules') (n : Node) (values : List α)
    : (claims rules n values).Perm (claims rules' n values) :=
  hperm.filterMap _

theorem applyNode_corresponds (hperm : rules.Perm rules')
    (h : reduceTrees rules n.children = .ok values)
    (h' : reduceTrees rules' n.children = .ok values)
    : Corresponds rules rules' dump [n] (applyNode ⟨rules, dump⟩ n values)
        (applyNode ⟨rules', dump⟩ n values) := by
  have hclaims := claims_perm hperm n values
  unfold applyNode
  by_cases hseveral : 2 ≤ (claims rules n values).length
  · rw [reduceNode_of_several hseveral, reduceNode_of_several (hclaims.length_eq ▸ hseveral)]
    exact .ambiguous [] [] rfl (by simp) ⟨values, h, rfl⟩ ⟨values, h', rfl⟩ hclaims hseveral
  · have heq := eq_of_perm_of_few hclaims hseveral
    have huncontested : ¬ Contested rules n ∧ ¬ Contested rules' n := by
      rw [contested_iff h, contested_iff h', ← heq]
      exact ⟨hseveral, hseveral⟩
    obtain ⟨result, hresult⟩ := exists_reduceNode hseveral
    have hresult' : reduceNode rules' n values = .ok result := by
      rw [← hresult, reduceNode, reduceNode, heq]
    rw [hresult, hresult']
    exact .ok result (List.forall_mem_singleton.mpr huncontested)

theorem applyAll_cons (r : Reducer α) (n : Node) (ns : List Node)
    : r.applyAll (n :: ns) = do
        let values ← r.applyMany n
        let others ← r.applyAll ns
        return values ++ others := by
  rw [← List.singleton_append, applyAll_append, applyAll_singleton]

mutual

theorem applyMany_corresponds (hperm : rules.Perm rules') (dump : α → String)
    : ∀ n : Node, Corresponds rules rules' dump n.postorder (applyMany ⟨rules, dump⟩ n)
        (applyMany ⟨rules', dump⟩ n)
  | ⟨token, label, children⟩ => by
    rw [applyMany_eq, applyMany_eq, postorder]
    apply (applyAll_corresponds hperm dump children).bind
    intro values hvalues hvalues'
    exact applyNode_corresponds hperm (mapError_eq_ok.mp hvalues) (mapError_eq_ok.mp hvalues')

theorem applyAll_corresponds (hperm : rules.Perm rules') (dump : α → String)
    : ∀ ns : List Node, Corresponds rules rules' dump (postorderAll ns) (applyAll ⟨rules, dump⟩ ns)
        (applyAll ⟨rules', dump⟩ ns)
  | [] => .ok [] (by simp [postorderAll])
  | n :: ns => by
    rw [applyAll_cons, applyAll_cons, postorderAll]
    apply (applyMany_corresponds hperm dump n).bind
    intro values _ _
    exact (applyAll_corresponds hperm dump ns).map fun others => values ++ others

end

theorem apply_corresponds (hperm : rules.Perm rules') (dump : α → String) (n : Node)
    : Corresponds rules rules' dump n.postorder (apply ⟨rules, dump⟩ n) (apply ⟨rules', dump⟩ n) ∨
        ∃ values, values.length ≠ 1 ∧ applyMany ⟨rules, dump⟩ n = .ok values ∧
          applyMany ⟨rules', dump⟩ n = .ok values ∧
          apply ⟨rules, dump⟩ n = .error ((Fault.notSingle n values).toFailure dump) ∧
          apply ⟨rules', dump⟩ n = .error ((Fault.notSingle n values).toFailure dump) := by
  have hmany := applyMany_corresponds hperm dump n
  rw [apply_eq, apply_eq]
  generalize applyMany ⟨rules, dump⟩ n = result at hmany ⊢
  generalize applyMany ⟨rules', dump⟩ n = result' at hmany ⊢
  cases hmany with
  | ok values huncontested =>
    rcases values with _ | ⟨value, _ | ⟨other, rest⟩⟩
    · exact .inr ⟨[], by simp, rfl, rfl, rfl, rfl⟩
    · exact .inl (.ok value huncontested)
    · exact .inr ⟨value :: other :: rest, by simp, rfl, rfl, rfl, rfl⟩
  | ambiguous before after split uncontested claimed claimed' perm several =>
    exact .inl (.ambiguous before after split uncontested claimed claimed' perm several)

theorem apply_agree (hperm : rules.Perm rules') (dump : α → String) (n : Node)
    : Agree Eq (apply ⟨rules, dump⟩ n) (apply ⟨rules', dump⟩ n) := by
  rcases apply_corresponds hperm dump n with h | ⟨values, _, _, _, h, h'⟩
  · exact h.agree
  · rw [h, h']
    exact .error rfl

theorem exists_applyMany_of_apply {r : Reducer α} {value : α} (h : r.apply n = .ok value)
    : ∃ values, r.applyMany n = .ok values := by
  rw [apply_eq] at h
  obtain ⟨values, hvalues, _⟩ := bind_eq_ok.mp h
  exact ⟨values, hvalues⟩

/--
The order of the reductions does not matter. A tree comes to the same values, just if none of its
nodes is contested, or else it fails at the first one that is, and nothing but the order of what
that node is claimed to be tells the failures apart. Where there is a value too many or none at all,
it fails in the same way.
-/
theorem results_of_perm (hperm : rules.Perm rules') (dump : α → String) (n : Node)
    : Corresponds rules rules' dump n.postorder (applyMany ⟨rules, dump⟩ n)
          (applyMany ⟨rules', dump⟩ n) ∧
        (Corresponds rules rules' dump n.postorder (apply ⟨rules, dump⟩ n)
            (apply ⟨rules', dump⟩ n) ∨
          ∃ values, values.length ≠ 1 ∧ applyMany ⟨rules, dump⟩ n = .ok values ∧
            applyMany ⟨rules', dump⟩ n = .ok values ∧
            apply ⟨rules, dump⟩ n = .error ((Fault.notSingle n values).toFailure dump) ∧
            apply ⟨rules', dump⟩ n = .error ((Fault.notSingle n values).toFailure dump)) ∧
        Agree Eq (applyMany ⟨rules, dump⟩ n) (applyMany ⟨rules', dump⟩ n) ∧
        Agree Eq (apply ⟨rules, dump⟩ n) (apply ⟨rules', dump⟩ n) ∧
        ((∃ values, applyMany ⟨rules, dump⟩ n = .ok values) ↔
          ∀ m ∈ n.postorder, ¬ Contested rules m) ∧
        ((∃ value, apply ⟨rules, dump⟩ n = .ok value) →
          ∀ m ∈ n.postorder, ¬ Contested rules m) := by
  have hmany := applyMany_corresponds hperm dump n
  refine ⟨hmany, apply_corresponds hperm dump n, hmany.agree, apply_agree hperm dump n,
    hmany.ok_iff, ?_⟩
  rintro ⟨value, hvalue⟩
  exact hmany.ok_iff.mp (exists_applyMany_of_apply hvalue)

/-- The second pair is the first node that is claimed twice, whichever claim comes first. -/
theorem results_of_perm_pairs
    : ∃ (rules rules' : List (Reduction Tagged)) (n : Node) (e e' : Failure),
        n = labelled "list" [word "b" 0, labelled "pair" [], labelled "pair" [word "a" 2]] ∧
          rules.Perm rules' ∧ apply ⟨rules, Tagged.dump⟩ n = .error e ∧
          apply ⟨rules', Tagged.dump⟩ n = .error e' ∧
          e.location = some ⟨0, 2⟩ ∧ e'.location = some ⟨0, 2⟩ := by
  let n : Node := labelled "list" [word "b" 0, labelled "pair" [], labelled "pair" [word "a" 2]]
  let recipes : List Tagged.Recipe := [.str "word", .unary "pair" "one", .variadic "pair" "all"]
  let rules : List (Reduction Tagged) := recipes.map Tagged.Recipe.toReduction
  let e : Failure := (Fault.ambiguous (labelled "pair" [word "a" 2])
    [.list "one" [.str "a"], .list "all" [.str "a"]]).toFailure Tagged.dump
  have hperm : rules.Perm rules.reverse := (List.reverse_perm rules).symm
  have herror : apply ⟨rules, Tagged.dump⟩ n = .error e := rfl
  have hagree := (results_of_perm hperm Tagged.dump n).2.2.2.1
  rw [herror] at hagree
  cases hresult : apply ⟨rules.reverse, Tagged.dump⟩ n with
  | ok value =>
    rw [hresult] at hagree
    cases hagree
  | error e' =>
    rw [hresult] at hagree
    cases hagree with
    | error hlocation =>
      exact ⟨rules, rules.reverse, n, e, e', rfl, hperm, herror, hresult, rfl, hlocation.symm⟩

end Reducer

end GrammarKit
