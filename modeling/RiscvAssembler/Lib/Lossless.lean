import RiscvAssembler.Lib.Lex

/-!
# Scanners that keep everything

A scanner of which every rule yields a token cuts its text into the texts of the lexemes. One that drops some
matches is such a scanner whose tokens are looked through afterwards.

* `scan_relabel`: the rules with other tokens, or none, in the place of theirs.
* `flatMap_scan`: the texts of the lexemes, behind each other, are the text.
-/

namespace Lex

variable {α τ υ : Type*} {rules : List (Rule α τ)}

/-- The pattern of the rule, with what becomes of its tokens. -/
def Rule.relabel (f : τ → Option υ) (rule : Rule α τ) : Rule α υ where
  re := rule.re
  action text h := (rule.action text h).bind f

theorem Rule.longest_relabel (f : τ → Option υ) (rule : Rule α τ) (w : List α) :
    (rule.relabel f).longest w = (rule.longest w).map fun m => (m.1, m.2.bind f) := by
  have hre : (rule.relabel f).re.longest w = rule.re.longest w := rfl
  unfold longest
  split
  · next hnone =>
    split
    · rfl
    · next hsome => cases (hre.symm.trans hnone).symm.trans hsome
  · next n hn =>
    split
    · next hnone => cases (hre.symm.trans hn).symm.trans hnone
    · next m hm =>
      obtain rfl : n = m := Option.some.inj ((hre.symm.trans hn).symm.trans hm)
      rfl

/-- What is chosen does not depend on the tokens. -/
theorem choose_relabel (f : τ → Option υ) (w : List α) :
    choose (rules.map (Rule.relabel f)) w = (choose rules w).map fun m => (m.1, m.2.bind f) := by
  induction rules with
  | nil => rfl
  | cons rule rules ih =>
      rw [List.map_cons, choose, choose, Rule.longest_relabel, ih]
      cases rule.longest w with
      | none => rfl
      | some m =>
          cases choose rules w with
          | none => rfl
          | some later =>
              simp only [Option.map_some]
              split_ifs
              · rfl
              · rfl

/-- **Other tokens.** -/
theorem scan_relabel (f : τ → Option υ) (w : List α) :
    scan (rules.map (Rule.relabel f)) w =
      (scan rules w).filterMap fun x => (f x.token).map (Lexeme.mk x.text) := by
  have hfrom : ∀ k, scanFrom (rules.map (Rule.relabel f)) k w =
      (scanFrom rules k w).filterMap fun x => (f x.token).map (Lexeme.mk x.text) := by
    induction w with
    | nil => intro k; cases k <;> rfl
    | cons a w ih =>
        intro k
        cases k with
        | succ k => exact ih k
        | zero =>
            rw [scanFrom, scanFrom, choose_relabel]
            cases choose rules (a :: w) with
            | none => exact ih 0
            | some m =>
                simp only [Option.map_some, ih, List.filterMap_append]
                congr 1
                cases m.2 with
                | none => rfl
                | some t =>
                    simp only [Option.bind_some, Option.map_some, Option.toList_some, List.filterMap_cons,
                      List.filterMap_nil]
                    cases f t <;> rfl
  exact hfrom 0

/-- **Nothing is lost** where there is a match with a token at every place. -/
theorem flatMap_scan (h : ∀ a w, ∃ n t, choose rules (a :: w) = some (n, some t)) (w : List α) :
    (scan rules w).flatMap Lexeme.text = w := by
  induction hlen : w.length using Nat.strong_induction_on generalizing w with
  | _ k ih =>
    cases w with
    | nil => rfl
    | cons a w =>
        obtain ⟨n, t, hchoose⟩ := h a w
        obtain ⟨hpos, hle⟩ := choose_bounds hchoose
        have hrest := ih ((a :: w).drop n).length (by rw [List.length_drop]; omega) _ rfl
        rw [scan_of_choose hchoose, List.flatMap_append, hrest, Option.map_some, Option.toList_some,
          List.flatMap_singleton]
        exact List.take_append_drop n (a :: w)

end Lex
