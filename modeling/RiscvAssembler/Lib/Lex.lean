import Mathlib.Computability.Language

/-!
# Scanners by longest match

Regular expressions over character classes, and the scanner that a list of rules stands for: at each
place the rule with the longest match wins, and of several with that length the first.

* `lang` gives an expression its language, `accepts_iff` says that derivatives decide it.
* `longest_sound`: what `longest` finds is a nonempty match.
* `scan` cuts a text into lexemes; `scan_of_choose` is one step of it.
* `choose_sound`, `mem_scan`: what is chosen, and every lexeme, is a text that some rule accepts.

Nothing here names a particular language.
-/

namespace Lex

open scoped Computability

variable {α τ : Type*}

/-! ## Regular expressions -/

/-- A regular expression whose letters are classes of characters. -/
inductive Regex (α : Type*)
  | empty
  | eps
  | cls (p : α → Bool)
  | seq (r s : Regex α)
  | alt (r s : Regex α)
  | star (r : Regex α)

namespace Regex

/-- The language of an expression. -/
def lang : Regex α → Language α
  | empty => 0
  | eps => 1
  | cls p => {w | ∃ a, p a = true ∧ w = [a]}
  | seq r s => r.lang * s.lang
  | alt r s => r.lang + s.lang
  | star r => r.lang∗

/-- The expression has the empty word. -/
def nullable : Regex α → Bool
  | empty => false
  | eps => true
  | cls _ => false
  | seq r s => r.nullable && s.nullable
  | alt r s => r.nullable || s.nullable
  | star _ => true

/-- Sequence, without dead or empty parts. -/
def mkSeq : Regex α → Regex α → Regex α
  | empty, _ => empty
  | eps, s => s
  | r, s => seq r s

/-- Alternative, without dead parts. -/
def mkAlt : Regex α → Regex α → Regex α
  | empty, s => s
  | r, empty => r
  | r, s => alt r s

/-- What is left of an expression behind a character. -/
def deriv : Regex α → α → Regex α
  | empty, _ => empty
  | eps, _ => empty
  | cls p, a => if p a then eps else empty
  | seq r s, a =>
    if r.nullable then mkAlt (mkSeq (r.deriv a) s) (s.deriv a) else mkSeq (r.deriv a) s
  | alt r s, a => mkAlt (r.deriv a) (s.deriv a)
  | star r, a => mkSeq (r.deriv a) (star r)

/-- The whole word matches. -/
def accepts (r : Regex α) (w : List α) : Bool := (w.foldl deriv r).nullable

theorem mem_cls {p : α → Bool} {w : List α} : w ∈ (cls p).lang ↔ ∃ a, p a = true ∧ w = [a] :=
  Iff.rfl

theorem mem_seq {r s : Regex α} {w : List α} :
    w ∈ (seq r s).lang ↔ ∃ u ∈ r.lang, ∃ v ∈ s.lang, u ++ v = w :=
  Language.mem_mul

theorem mem_alt {r s : Regex α} {w : List α} :
    w ∈ (alt r s).lang ↔ w ∈ r.lang ∨ w ∈ s.lang :=
  Iff.rfl

theorem lang_mkSeq (r s : Regex α) : (mkSeq r s).lang = r.lang * s.lang := by
  cases r <;> simp [mkSeq, lang]

theorem lang_mkAlt (r s : Regex α) : (mkAlt r s).lang = r.lang + s.lang := by
  cases r with
  | empty => exact (zero_add s.lang).symm
  | _ =>
      cases s with
      | empty => exact (add_zero _).symm
      | _ => rfl

theorem nullable_iff (r : Regex α) : r.nullable = true ↔ [] ∈ r.lang := by
  induction r with
  | empty => simp [nullable, lang]
  | eps => simp [nullable, lang]
  | cls p => simp [nullable, mem_cls]
  | seq r s ihr ihs =>
      rw [nullable, Bool.and_eq_true, ihr, ihs, mem_seq]
      constructor
      · intro h
        exact ⟨[], h.1, [], h.2, rfl⟩
      · rintro ⟨u, hu, v, hv, huv⟩
        obtain ⟨rfl, rfl⟩ := List.append_eq_nil_iff.mp huv
        exact ⟨hu, hv⟩
  | alt r s ihr ihs => rw [nullable, Bool.or_eq_true, ihr, ihs, mem_alt]
  | star r _ => exact iff_of_true rfl (Language.nil_mem_kstar r.lang)

/-- A word of a product begins in the first factor, or that is empty. -/
theorem cons_mem_mul {L M : Language α} {a : α} {w : List α} :
    a :: w ∈ L * M ↔ (∃ u, a :: u ∈ L ∧ ∃ v ∈ M, u ++ v = w) ∨ [] ∈ L ∧ a :: w ∈ M := by
  rw [Language.mem_mul]
  constructor
  · rintro ⟨u, hu, v, hv, huv⟩
    cases u with
    | nil => exact Or.inr ⟨hu, huv ▸ hv⟩
    | cons b u =>
        obtain ⟨rfl, rfl⟩ := List.cons.inj huv
        exact Or.inl ⟨u, hu, v, hv, rfl⟩
  · rintro (⟨u, hu, v, hv, rfl⟩ | ⟨hnil, hw⟩)
    · exact ⟨a :: u, hu, v, hv, rfl⟩
    · exact ⟨[], hnil, a :: w, hw, rfl⟩

/-- A word of an iteration begins with a nonempty round. -/
theorem cons_mem_kstar {L : Language α} {a : α} {w : List α} :
    a :: w ∈ L∗ ↔ ∃ u, a :: u ∈ L ∧ ∃ v ∈ L∗, u ++ v = w := by
  constructor
  · intro h
    obtain ⟨rounds, hw, hrounds⟩ := Language.mem_kstar_iff_exists_nonempty.mp h
    cases rounds with
    | nil => cases hw
    | cons y rounds =>
        obtain ⟨hy, hne⟩ := hrounds y List.mem_cons_self
        obtain ⟨b, u, rfl⟩ := List.exists_cons_of_ne_nil hne
        obtain ⟨rfl, rfl⟩ := List.cons.inj hw
        refine ⟨u, hy, rounds.flatten, Language.join_mem_kstar ?_, rfl⟩
        intro z hz
        exact (hrounds z (List.mem_cons_of_mem _ hz)).1
  · rintro ⟨u, hu, v, hv, rfl⟩
    obtain ⟨rounds, rfl, hrounds⟩ := Language.mem_kstar.mp hv
    have hflat : (a :: (u ++ rounds.flatten)) = ((a :: u) :: rounds).flatten := rfl
    rw [hflat]
    exact Language.join_mem_kstar (List.forall_mem_cons.mpr ⟨hu, hrounds⟩)

/-- A product whose first factor is what is left of a language behind a character. -/
theorem mem_mul_of_left {L D M : Language α} {a : α} (hD : ∀ w, w ∈ D ↔ a :: w ∈ L) (w : List α) :
    w ∈ D * M ↔ ∃ u, a :: u ∈ L ∧ ∃ v ∈ M, u ++ v = w := by
  rw [Language.mem_mul]
  exact exists_congr fun u => and_congr_left fun _ => hD u

/-- **Derivatives.** -/
theorem mem_deriv (r : Regex α) (a : α) (w : List α) : w ∈ (r.deriv a).lang ↔ a :: w ∈ r.lang := by
  induction r generalizing w with
  | empty => simp [deriv, lang]
  | eps => simp [deriv, lang]
  | cls p =>
      rw [deriv, mem_cls]
      by_cases hp : p a = true
      · simp [hp, lang]
      · simp [hp, lang]
  | seq r s ihr ihs =>
      rw [lang, cons_mem_mul, ← mem_mul_of_left ihr, ← nullable_iff, deriv]
      by_cases hr : r.nullable = true
      · rw [if_pos hr, lang_mkAlt, lang_mkSeq, Language.mem_add, ihs]
        simp [hr]
      · rw [if_neg hr, lang_mkSeq]
        simp [hr]
  | alt r s ihr ihs => rw [deriv, lang_mkAlt, Language.mem_add, ihr, ihs, mem_alt]
  | star r ih =>
      rw [deriv, lang_mkSeq]
      exact (mem_mul_of_left ih w).trans cons_mem_kstar.symm

/-- **Derivatives decide the language.** -/
theorem accepts_iff (r : Regex α) (w : List α) : r.accepts w = true ↔ w ∈ r.lang := by
  unfold accepts
  induction w generalizing r with
  | nil => exact nullable_iff r
  | cons a w ih => rw [List.foldl_cons, ih, mem_deriv]

/-! ## Building expressions -/

/-- The expression of one word. -/
def word [DecidableEq α] : List α → Regex α
  | [] => eps
  | a :: w => seq (cls (· == a)) (word w)

/-- `r?`. -/
def opt (r : Regex α) : Regex α := alt eps r

/-- `r+`. -/
def plus (r : Regex α) : Regex α := seq r (star r)

theorem mem_opt {r : Regex α} {w : List α} : w ∈ (opt r).lang ↔ w = [] ∨ w ∈ r.lang := by
  rw [opt, mem_alt]
  exact or_congr_left (Language.mem_one w)

theorem mem_word [DecidableEq α] {u w : List α} : w ∈ (word u).lang ↔ w = u := by
  induction u generalizing w with
  | nil => exact Language.mem_one w
  | cons a u ih =>
      rw [word, mem_seq]
      constructor
      · rintro ⟨v, ⟨b, hb, rfl⟩, v', hv', rfl⟩
        rw [ih.mp hv', eq_of_beq hb]
        rfl
      · rintro rfl
        exact ⟨[a], ⟨a, beq_self_eq_true a, rfl⟩, u, ih.mpr rfl, rfl⟩

theorem mem_star_cls {p : α → Bool} {w : List α} :
    w ∈ (star (cls p)).lang ↔ w.all p = true := by
  have hlang : (star (cls p)).lang = (cls p).lang∗ := rfl
  induction w with
  | nil => exact iff_of_true (Language.nil_mem_kstar _) rfl
  | cons a w ih =>
      rw [hlang] at ih ⊢
      rw [cons_mem_kstar, List.all_cons, Bool.and_eq_true]
      constructor
      · rintro ⟨_, ⟨_, hp, hu⟩, v, hv, rfl⟩
        cases hu
        exact ⟨hp, ih.mp hv⟩
      · rintro ⟨hp, hw⟩
        exact ⟨[], ⟨a, hp, rfl⟩, w, ih.mpr hw, rfl⟩

theorem mem_plus_cls {p : α → Bool} {w : List α} :
    w ∈ (plus (cls p)).lang ↔ w ≠ [] ∧ w.all p = true := by
  rw [plus, mem_seq]
  constructor
  · rintro ⟨_, ⟨a, ha, rfl⟩, v, hv, rfl⟩
    refine ⟨List.cons_ne_nil a v, ?_⟩
    show (a :: v).all p = true
    rw [List.all_cons, ha, mem_star_cls.mp hv, Bool.and_self]
  · rintro ⟨hne, hall⟩
    obtain ⟨a, v, rfl⟩ := List.exists_cons_of_ne_nil hne
    rw [List.all_cons, Bool.and_eq_true] at hall
    exact ⟨[a], ⟨a, hall.1, rfl⟩, v, mem_star_cls.mpr hall.2, rfl⟩

/-! ## The longest match -/

/-- The length of the longest nonempty match at the start of a text. -/
def longest : Regex α → List α → Option ℕ
  | empty, _ => none
  | _, [] => none
  | r, a :: w =>
    match (r.deriv a).longest w with
    | some n => some (n + 1)
    | none => if (r.deriv a).nullable then some 1 else none

theorem longest_cons (r : Regex α) (a : α) (w : List α) :
    r.longest (a :: w) = match (r.deriv a).longest w with
      | some n => some (n + 1)
      | none => if (r.deriv a).nullable then some 1 else none := by
  cases r with
  | empty => cases w <;> rfl
  | _ => rfl

/-- What is found is a nonempty match. -/
theorem longest_sound {r : Regex α} {w : List α} {n : ℕ} (h : r.longest w = some n) :
    0 < n ∧ n ≤ w.length ∧ r.accepts (w.take n) = true := by
  induction w generalizing r n with
  | nil => cases r <;> cases h
  | cons a w ih =>
      rw [longest_cons] at h
      cases hrest : (r.deriv a).longest w with
      | some m =>
          obtain ⟨-, hle, hmatch⟩ := ih hrest
          rw [hrest] at h
          cases h
          exact ⟨m.succ_pos, Nat.succ_le_succ hle, hmatch⟩
      | none =>
          rw [hrest] at h
          simp only at h
          split_ifs at h with hnull
          cases h
          exact ⟨Nat.one_pos, Nat.succ_le_succ (Nat.zero_le _), hnull⟩

/-- No match is longer than what is found. -/
theorem longest_max {r : Regex α} {w : List α} {m : ℕ} (hpos : 0 < m) (hle : m ≤ w.length)
    (h : r.accepts (w.take m) = true) : ∃ n, r.longest w = some n ∧ m ≤ n := by
  induction w generalizing r m with
  | nil => exact absurd (Nat.le_zero.mp hle) hpos.ne'
  | cons a w ih =>
      obtain ⟨k, rfl⟩ := Nat.exists_eq_succ_of_ne_zero hpos.ne'
      have hrest : (r.deriv a).accepts (w.take k) = true := h
      rw [longest_cons]
      by_cases hk : k = 0
      · subst hk
        have hnull : (r.deriv a).nullable = true := hrest
        cases (r.deriv a).longest w with
        | some n => exact ⟨n + 1, rfl, by omega⟩
        | none => exact ⟨1, if_pos hnull, Nat.le_refl 1⟩
      · obtain ⟨n, hn, hkn⟩ := ih (Nat.pos_of_ne_zero hk) (Nat.le_of_succ_le_succ hle) hrest
        rw [hn]
        exact ⟨n + 1, rfl, Nat.succ_le_succ hkn⟩

end Regex

/-! ## Rules -/

/-- A pattern, and the token that a text of it yields, if any. -/
structure Rule (α τ : Type*) where
  re : Regex α
  action : (text : List α) → re.accepts text = true → Option τ

/-- A token, with its text. -/
structure Lexeme (α τ : Type*) where
  text : List α
  token : τ

/-- The longest match of a rule: its length and its token. -/
def Rule.longest (rule : Rule α τ) (w : List α) : Option (ℕ × Option τ) :=
  match h : rule.re.longest w with
  | none => none
  | some n => some (n, rule.action (w.take n) (Regex.longest_sound h).2.2)

/-- The longest match of all rules, by the first rule that has it. -/
def choose : List (Rule α τ) → List α → Option (ℕ × Option τ)
  | [], _ => none
  | rule :: rules, w =>
    match rule.longest w, choose rules w with
    | none, later => later
    | some m, none => some m
    | some m, some later => if m.1 < later.1 then some later else some m

theorem Rule.longest_bounds {rule : Rule α τ} {w : List α} {n : ℕ} {t : Option τ}
    (h : rule.longest w = some (n, t)) : 0 < n ∧ n ≤ w.length := by
  unfold longest at h
  split at h
  · cases h
  · next hn =>
    cases h
    exact ⟨(Regex.longest_sound hn).1, (Regex.longest_sound hn).2.1⟩

/-- The match that is chosen is not empty and within the text. -/
theorem choose_bounds {rules : List (Rule α τ)} {w : List α} {n : ℕ} {t : Option τ}
    (h : choose rules w = some (n, t)) : 0 < n ∧ n ≤ w.length := by
  induction rules with
  | nil => cases h
  | cons rule rules ih =>
      rw [choose] at h
      cases hrule : rule.longest w with
      | none =>
          rw [hrule] at h
          exact ih h
      | some m =>
          cases hlater : choose rules w with
          | none =>
              rw [hrule, hlater] at h
              cases h
              exact rule.longest_bounds hrule
          | some later =>
              simp only [hrule, hlater] at h
              split_ifs at h
              · exact ih (hlater.trans h)
              · cases h
                exact rule.longest_bounds hrule

/-- The match that is chosen is one of some rule. -/
theorem choose_sound {rules : List (Rule α τ)} {w : List α} {n : ℕ} {t : Option τ}
    (h : choose rules w = some (n, t)) :
    ∃ rule ∈ rules, ∃ hw : rule.re.accepts (w.take n) = true, rule.action (w.take n) hw = t := by
  induction rules with
  | nil => cases h
  | cons first rules ih =>
      have hfirst : ∀ {m}, first.longest w = some m → m = (n, t) →
          ∃ hw : first.re.accepts (w.take n) = true, first.action (w.take n) hw = t := by
        rintro m hm rfl
        unfold Rule.longest at hm
        split at hm
        · cases hm
        · next hn =>
          cases hm
          exact ⟨(Regex.longest_sound hn).2.2, rfl⟩
      have hlater : choose rules w = some (n, t) → ∃ rule ∈ first :: rules,
          ∃ hw : rule.re.accepts (w.take n) = true, rule.action (w.take n) hw = t := by
        intro hlater
        obtain ⟨rule, hmem, hrule⟩ := ih hlater
        exact ⟨rule, List.mem_cons_of_mem _ hmem, hrule⟩
      rw [choose] at h
      cases hm : first.longest w with
      | none =>
          rw [hm] at h
          exact hlater h
      | some m =>
          cases hl : choose rules w with
          | none =>
              rw [hm, hl] at h
              exact ⟨first, List.mem_cons_self, hfirst hm (Option.some.inj h)⟩
          | some later =>
              simp only [hm, hl] at h
              split_ifs at h
              · exact hlater (hl.trans h)
              · exact ⟨first, List.mem_cons_self, hfirst hm (Option.some.inj h)⟩

/-- A rule that matches something makes the choice succeed. -/
theorem exists_choose {rules : List (Rule α τ)} {rule : Rule α τ} (hrule : rule ∈ rules)
    {w : List α} {m : ℕ} (hpos : 0 < m) (hle : m ≤ w.length)
    (h : rule.re.accepts (w.take m) = true) : ∃ n t, choose rules w = some (n, t) := by
  induction rules with
  | nil => cases hrule
  | cons first rules ih =>
      rw [choose]
      rcases List.mem_cons.mp hrule with rfl | hlater
      · obtain ⟨n, hn, -⟩ := Regex.longest_max hpos hle h
        have hmatch : ∃ t, rule.longest w = some (n, t) := by
          unfold Rule.longest
          split
          · next hnone => rw [hn] at hnone; cases hnone
          · next k hk => rw [hn] at hk; cases hk; exact ⟨_, rfl⟩
        obtain ⟨t, ht⟩ := hmatch
        rw [ht]
        cases choose rules w with
        | none => exact ⟨n, t, rfl⟩
        | some later =>
            simp only
            split_ifs
            · exact ⟨_, _, rfl⟩
            · exact ⟨_, _, rfl⟩
      · obtain ⟨n, t, hn⟩ := ih hlater
        rw [hn]
        cases first.longest w with
        | none => exact ⟨n, t, rfl⟩
        | some m =>
            simp only
            split_ifs
            · exact ⟨_, _, rfl⟩
            · exact ⟨_, _, rfl⟩

/-! ## Scanning -/

/-- Scan a text, of which so many characters still belong to the match before. A character that no
rule matches is passed over. -/
def scanFrom (rules : List (Rule α τ)) : ℕ → List α → List (Lexeme α τ)
  | _, [] => []
  | k + 1, _ :: w => scanFrom rules k w
  | 0, a :: w =>
    match choose rules (a :: w) with
    | none => scanFrom rules 0 w
    | some (n, t) => (t.map (Lexeme.mk ((a :: w).take n))).toList ++ scanFrom rules (n - 1) w

/-- Scan a text. -/
def scan (rules : List (Rule α τ)) (w : List α) : List (Lexeme α τ) := scanFrom rules 0 w

theorem scanFrom_eq (rules : List (Rule α τ)) (k : ℕ) (w : List α) :
    scanFrom rules k w = scan rules (w.drop k) := by
  induction w generalizing k with
  | nil => simp [scan, scanFrom]
  | cons a w ih =>
      cases k with
      | zero => rfl
      | succ k => exact ih k

/-- **One step of the scanner.** -/
theorem scan_of_choose {rules : List (Rule α τ)} {w : List α} {n : ℕ} {t : Option τ}
    (h : choose rules w = some (n, t)) :
    scan rules w = (t.map (Lexeme.mk (w.take n))).toList ++ scan rules (w.drop n) := by
  obtain ⟨hpos, hle⟩ := choose_bounds h
  obtain ⟨k, rfl⟩ := Nat.exists_eq_succ_of_ne_zero hpos.ne'
  cases w with
  | nil => cases hle
  | cons a w =>
      rw [scan, scanFrom, h]
      simp only [Nat.succ_sub_one, scanFrom_eq]
      rfl

/-- A lexeme is a text that some rule accepts, with the token of that rule. -/
theorem mem_scan {rules : List (Rule α τ)} {w : List α} {x : Lexeme α τ} (hx : x ∈ scan rules w) :
    ∃ rule ∈ rules, ∃ hw : rule.re.accepts x.text = true, rule.action x.text hw = some x.token := by
  have hfrom : ∀ (w : List α) (k : ℕ), x ∈ scanFrom rules k w → ∃ rule ∈ rules,
      ∃ hw : rule.re.accepts x.text = true, rule.action x.text hw = some x.token := by
    intro w
    induction w with
    | nil => intro k hk; cases k <;> cases hk
    | cons a w ih =>
        intro k hk
        cases k with
        | succ k => exact ih k hk
        | zero =>
            rw [scanFrom] at hk
            cases hc : choose rules (a :: w) with
            | none =>
                rw [hc] at hk
                exact ih 0 hk
            | some m =>
                obtain ⟨n, t⟩ := m
                rw [hc] at hk
                rcases List.mem_append.mp hk with hk | hk
                · obtain ⟨token, rfl, rfl⟩ : ∃ token, t = some token ∧
                      x = ⟨(a :: w).take n, token⟩ := by
                    cases t with
                    | none => cases hk
                    | some token => exact ⟨token, rfl, List.mem_singleton.mp hk⟩
                  exact choose_sound hc
                · exact ih (n - 1) hk
  exact hfrom w 0 hx

end Lex
