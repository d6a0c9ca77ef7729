import GrammarKit.Proofs.Recognizer.Reaches
import GrammarKit.Proofs.Regex.Matching
import GrammarKit.Proofs.Run.Eventually

/-!
This module contains that a regex matches the first part of a text, and where in the text it gets to
on the way. Distances are counted in bytes; that they end between two characters is due to all that
any rule yields being the first part of what was left to read.
-/

namespace GrammarKit

open Recognizer

namespace Position

/-- The place of the position in the text, if what is left to read is the end of the text. -/
def offsetIn (pos : Position) (text : String) : String.Pos.Raw :=
  ⟨text.utf8ByteSize - byteLength pos.rest⟩

/--
Moving on by `n` bytes leads from one boundary between characters to another one, which is in the
text and that many bytes away.
-/
structure SkipsWithin (text : String) (pos : Position) (n : Nat) : Prop where
  suffix : pos.rest <:+ text.toList
  valid : (pos.offsetIn text).IsValid text
  le_size : (pos.offsetIn text).byteIdx + n ≤ text.utf8ByteSize
  valid_skip : ((pos.skip n).offsetIn text).IsValid text
  offset_skip : ((pos.skip n).offsetIn text).byteIdx = (pos.offsetIn text).byteIdx + n

variable {text : String} {before rest : List Char}

theorem utf8ByteSize_of_toList (h : text.toList = before ++ rest)
    : text.utf8ByteSize = byteLength before + byteLength rest := by
  rw [← byteLength_append, ← h, byteLength_ofList, String.ofList_toList]

theorem offsetIn_of_toList (h : text.toList = before ++ rest)
    : offsetIn ⟨rest⟩ text = ⟨byteLength before⟩ := by
  rw [offsetIn, utf8ByteSize_of_toList h, Nat.add_sub_cancel]

theorem offsetIn_isValid (h : text.toList = before ++ rest)
    : (offsetIn ⟨rest⟩ text).IsValid text := by
  rw [offsetIn_of_toList h, String.Pos.Raw.isValid_iff_exists_append]
  refine ⟨String.ofList before, String.ofList rest, ?_, ?_⟩
  · rw [← String.ofList_append, ← h, String.ofList_toList]
  · rw [byteLength_ofList]
    rfl

theorem OnBoundary.skipsWithin {pos : Position} {n : Nat} (hpos : pos.rest <:+ text.toList)
    (h : pos.OnBoundary n)
    : SkipsWithin text pos n := by
  obtain ⟨chars⟩ := pos
  obtain ⟨taken, ⟨rest, rfl⟩, rfl⟩ := h
  obtain ⟨before, hbefore⟩ := id hpos
  have htext : text.toList = before ++ (taken ++ rest) := hbefore.symm
  have hskipped : text.toList = (before ++ taken) ++ rest := by rw [htext, List.append_assoc]
  refine ⟨hpos, offsetIn_isValid htext, ?_, ?_, ?_⟩
  · rw [offsetIn_of_toList htext, utf8ByteSize_of_toList hskipped, byteLength_append]
    exact Nat.le_add_right _ _
  · rw [skip_byteLength]
    exact offsetIn_isValid hskipped
  · rw [skip_byteLength, offsetIn_of_toList hskipped, offsetIn_of_toList htext, byteLength_append]

end Position

namespace Matcher

/-- What is repeated up to the end of the text takes all of it. -/
theorem exhausted_flatten {ev : Rule Matcher → Position → Run (List Char)}
    (hev : ∀ rule pos text, (ev rule pos).Yields text → text <+: pos.rest) {rule : Rule Matcher}
    {n : Nat} {pos : Position} {texts : List (List Char)}
    (h : (exhausted domain ev rule n pos).Yields texts)
    : texts.flatten = pos.rest := by
  induction n generalizing pos texts with
  | zero => simp [exhausted] at h
  | succ n ih =>
    unfold exhausted at h
    split at h
    · next hempty =>
      rw [Run.ok_yields] at h
      rw [← h, List.isEmpty_iff.mp hempty, List.flatten_nil]
    · simp only [Run.bind_eq, Run.pure_eq, Run.andThen_yields, Run.ok_yields] at h
      obtain ⟨text, htext, others, hothers, rfl⟩ := h
      obtain ⟨rest, hrest⟩ := hev rule pos text htext
      have hadvance : domain.advance pos text = ⟨rest⟩ := Position.skip_eq_of_prefix hrest.symm
      rw [List.flatten_cons, ih hothers, hadvance, hrest]

end Matcher

namespace Regex

variable {r : Regex}

theorem eval_untilEmpty_eq {rule : Rule Matcher} {pos : Position} {text : List Char}
    (h : (r.eval (.untilEmpty rule) pos).Yields text)
    : text = pos.rest := by
  obtain ⟨texts, htexts, rfl⟩ := eval_untilEmpty_yields.mp h
  exact Matcher.exhausted_flatten (fun _ _ _ => eval_prefix) htexts

theorem eval_of_matchText {text m : String} (h : (r.matchText text).run = some (.ok m))
    : (r.eval r.rule (Position.ofString text)).Yields m.toList := by
  obtain ⟨chars, hchars, hm⟩ := Eventually.map_eq_ok.mp h
  rw [← hm, String.toList_ofList]
  exact (matchAt_run_eq_some _ _).mp hchars

/--
A match is the first part of the text, and all of it for a rule that goes on to the end. On the way
to it every rule yields the first part of what is left where it is applied, so that moving on by its
length never leads into a character or past the end.
-/
theorem matchText_prefix (r : Regex) (text : String)
    : (∀ m, (r.matchText text).run = some (.ok m) →
        (∃ rest, m ++ rest = text) ∧ ∀ rule, r.rule = .untilEmpty rule → m = text) ∧
        ∀ rule pos, r.recognizer.Reaches (.ref rootName, Position.ofString text) (rule, pos) →
          ∀ output, (r.eval rule pos).Yields output →
            output <+: pos.rest ∧ pos.SkipsWithin text (byteLength output) := by
  constructor
  · intro m hm
    have heval := eval_of_matchText hm
    refine ⟨?_, fun rule hrule => ?_⟩
    · obtain ⟨rest, hrest⟩ := eval_prefix heval
      refine ⟨String.ofList rest, String.toList_inj.mp ?_⟩
      rw [String.toList_append, String.toList_ofList]
      exact hrest
    · rw [hrule] at heval
      exact String.toList_inj.mp (eval_untilEmpty_eq heval)
  · intro rule pos hreaches output houtput
    have hstart : output <+: pos.rest := eval_prefix houtput
    exact ⟨hstart, Position.OnBoundary.skipsWithin hreaches.rest ⟨output, hstart, rfl⟩⟩

section Examples

/-- Characters up to the end of the text, where an accent has an alternative of its own. -/
def accents : Regex :=
  ⟨.untilEmpty (.alt [.atom (.literal "é"), .atom (.not (.atom (.literal "é")))])⟩

theorem reaches_accent
    : accents.recognizer.Reaches (.ref rootName, Position.ofString "né!")
        (.atom (.literal "é"), ⟨['é', '!']⟩) := by
  have hfirst : (accents.eval (.alt [.atom (.literal "é"), .atom (.not (.atom (.literal "é")))])
      (Position.ofString "né!")).Yields ['n'] := ⟨_, rfl⟩
  have hroot : accents.recognizer.Reaches (.ref rootName, Position.ofString "né!")
      (accents.rule, Position.ofString "né!") := .single (.ref rfl)
  have hsecond : accents.recognizer.Reaches (.ref rootName, Position.ofString "né!")
      (accents.rule, ⟨['é', '!']⟩) := hroot.tail (.untilEmptyNext rfl hfirst)
  exact (hsecond.tail (.untilEmpty rfl)).tail (.alt List.mem_cons_self)

/-- The accent takes two bytes, from the second one to the fourth one of the text. -/
theorem matchText_prefix_accents
    : (accents.matchText "né!").run = some (.ok "né!") ∧
        (accents.eval (.atom (.literal "é")) ⟨['é', '!']⟩).Yields ['é'] ∧
          Position.SkipsWithin "né!" ⟨['é', '!']⟩ 2 := by
  have hmatch : (accents.matchText "né!").run = some (.ok "né!") := rfl
  have hyields : (accents.eval (.atom (.literal "é")) ⟨['é', '!']⟩).Yields ['é'] := ⟨_, rfl⟩
  obtain ⟨_, hreached⟩ := matchText_prefix accents "né!"
  exact ⟨hmatch, hyields, (hreached _ _ reaches_accent _ hyields).2⟩

end Examples

end Regex

end GrammarKit
