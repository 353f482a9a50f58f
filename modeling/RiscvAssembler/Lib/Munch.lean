import RiscvAssembler.Lib.Lex

/-!
# Where the longest match ends

What a list of rules makes of a text `u` with something behind it. The match is `u` if it neither runs
on nor stops short:

* `Ends rules u v`: no rule goes on from `u` into `v`. `ends_cons` gets this from a check on the
  expressions behind the first letter of `u`, `ends_close` for a text that a closing letter ends.
* `whole rules u`: what the first rule that accepts all of `u` yields.
* `scan_append`: then `u` is the first lexeme, and the scanner goes on behind it.

`within` is a check on the words of an expression over some letters, by which a rule is found not to
accept a text.
-/

namespace Lex

variable {α τ : Type*}

namespace Regex

/-! ## Checks on expressions -/

/-- No word has one of the letters. -/
def avoids (as : List α) : Regex α → Bool
  | empty => true
  | eps => true
  | cls p => as.all fun a => !p a
  | seq r s => r.avoids as && s.avoids as
  | alt r s => r.avoids as && s.avoids as
  | star r => r.avoids as

/-- A word that has one of the letters has it at its end only. -/
def closes (as : List α) : Regex α → Bool
  | empty => true
  | eps => true
  | cls _ => true
  | seq r s => r.avoids as && s.closes as
  | alt r s => r.closes as && s.closes as
  | star r => r.avoids as

/-- There is no word, syntactically. -/
def dead : Regex α → Bool
  | empty => true
  | _ => false

/-- There is no word but the empty one, syntactically. -/
def spent : Regex α → Bool
  | empty => true
  | eps => true
  | _ => false

/-- The words over some letters, unless an iteration may make them infinitely many. -/
def words (letters : List α) : Regex α → Option (List (List α))
  | empty => some []
  | eps => some [[]]
  | cls p => some ((letters.filter p).map fun a => [a])
  | seq r s =>
    match r.words letters with
    | none => none
    | some [] => some []
    | some us => (s.words letters).map fun vs => us.flatMap fun u => vs.map fun v => u ++ v
  | alt r s =>
    match r.words letters, s.words letters with
    | some us, some vs => some (us ++ vs)
    | _, _ => none
  | star _ => none

/-- Every word over the letters is one of the names. -/
def within [BEq α] (letters : List α) (names : List (List α)) (r : Regex α) : Bool :=
  match r.words letters with
  | some ws => ws.all fun w => names.contains w
  | none => false

theorem notMem_of_avoids {as : List α} {a : α} (ha : a ∈ as) {r : Regex α} (h : r.avoids as = true)
    {w : List α} (hw : w ∈ r.lang) : a ∉ w := by
  induction r generalizing w with
  | empty => exact (Language.notMem_zero w hw).elim
  | eps =>
      rw [(Language.mem_one w).mp hw]
      exact List.not_mem_nil
  | cls p =>
      obtain ⟨b, hb, rfl⟩ := hw
      intro hmem
      rw [List.mem_singleton] at hmem
      have hnot := List.all_eq_true.mp h a ha
      rw [hmem, hb] at hnot
      cases hnot
  | seq r s ihr ihs =>
      obtain ⟨hr, hs⟩ := Bool.and_eq_true_iff.mp h
      obtain ⟨u, hu, v, hv, rfl⟩ := mem_seq.mp hw
      rw [List.mem_append]
      exact fun hmem => hmem.elim (ihr hr hu) (ihs hs hv)
  | alt r s ihr ihs =>
      obtain ⟨hr, hs⟩ := Bool.and_eq_true_iff.mp h
      exact (mem_alt.mp hw).elim (ihr hr) (ihs hs)
  | star r ih =>
      obtain ⟨rounds, rfl, hrounds⟩ := Language.mem_kstar.mp hw
      intro hmem
      obtain ⟨round, hround, hmem⟩ := List.mem_flatten.mp hmem
      exact ih h (hrounds round hround) hmem

theorem eq_nil_of_closes {as : List α} {a : α} (ha : a ∈ as) {r : Regex α} (h : r.closes as = true)
    {u v : List α} (hw : u ++ a :: v ∈ r.lang) : v = [] := by
  induction r generalizing u with
  | empty => exact (Language.notMem_zero _ hw).elim
  | eps => simpa using (Language.mem_one _).mp hw
  | cls p =>
      obtain ⟨b, -, hb⟩ := hw
      rcases List.append_eq_singleton_iff.mp hb with ⟨-, hrest⟩ | ⟨-, hrest⟩
      · exact (List.cons.inj hrest).2
      · cases hrest
  | seq r s _ ihs =>
      obtain ⟨hr, hs⟩ := Bool.and_eq_true_iff.mp h
      obtain ⟨x, hx, y, hy, heq⟩ := mem_seq.mp hw
      -- the letter is not in the first part
      rcases List.append_eq_append_iff.mp heq with ⟨m, rfl, rfl⟩ | ⟨m, hm, hrest⟩
      · exact ihs hs hy
      · cases m with
        | nil =>
            rw [List.nil_append] at hrest
            exact ihs hs (u := []) (hrest ▸ hy)
        | cons b m =>
            obtain ⟨rfl, -⟩ := List.cons.inj hrest
            refine absurd ?_ (notMem_of_avoids ha hr hx)
            rw [hm]
            simp
  | alt r s ihr ihs =>
      obtain ⟨hr, hs⟩ := Bool.and_eq_true_iff.mp h
      exact (mem_alt.mp hw).elim (ihr hr) (ihs hs)
  | star r _ =>
      refine absurd ?_ (notMem_of_avoids (r := star r) ha h hw)
      simp

theorem accepts_of_dead {r : Regex α} (h : r.dead = true) (w : List α) : r.accepts w = false := by
  cases r with
  | empty =>
      rw [← Bool.not_eq_true, accepts_iff]
      exact Language.notMem_zero w
  | _ => cases h

theorem accepts_of_spent {r : Regex α} (h : r.spent = true) {w : List α} (hw : w ≠ []) :
    r.accepts w = false := by
  rw [← Bool.not_eq_true, accepts_iff]
  cases r with
  | empty => exact Language.notMem_zero w
  | eps => exact fun hmem => hw ((Language.mem_one w).mp hmem)
  | _ => cases h

theorem mem_words {letters : List α} {r : Regex α} {ws : List (List α)}
    (h : r.words letters = some ws) {w : List α} (hw : w ∈ r.lang) (hall : ∀ a ∈ w, a ∈ letters) :
    w ∈ ws := by
  induction r generalizing ws w with
  | empty => exact (Language.notMem_zero w hw).elim
  | eps =>
      cases h
      exact List.mem_singleton.mpr ((Language.mem_one w).mp hw)
  | cls p =>
      cases h
      obtain ⟨a, ha, rfl⟩ := hw
      refine List.mem_map.mpr ⟨a, ?_, rfl⟩
      rw [List.mem_filter]
      exact ⟨hall a List.mem_cons_self, ha⟩
  | seq r s ihr ihs =>
      obtain ⟨u, hu, v, hv, rfl⟩ := mem_seq.mp hw
      rw [List.forall_mem_append] at hall
      unfold words at h
      split at h
      · cases h
      · next hr => exact (List.not_mem_nil (ihr hr hu hall.1)).elim
      · next us _ hr =>
        obtain ⟨vs, hs, rfl⟩ := Option.map_eq_some_iff.mp h
        refine List.mem_flatMap.mpr ⟨u, ihr hr hu hall.1, ?_⟩
        exact List.mem_map.mpr ⟨v, ihs hs hv hall.2, rfl⟩
  | alt r s ihr ihs =>
      unfold words at h
      split at h
      · next us vs hr hs =>
        cases h
        rw [List.mem_append]
        exact (mem_alt.mp hw).imp (fun hw => ihr hr hw hall) fun hw => ihs hs hw hall
      · cases h
  | star r _ => cases h

/-- **A text over the letters that is not one of the names is not accepted.** -/
theorem accepts_of_within [BEq α] [LawfulBEq α] {letters : List α} {names : List (List α)}
    {r : Regex α} (h : r.within letters names = true) {w : List α} (hall : ∀ a ∈ w, a ∈ letters)
    (hname : w ∉ names) : r.accepts w = false := by
  rw [← Bool.not_eq_true, accepts_iff]
  intro hw
  unfold within at h
  split at h
  · next ws hws =>
    have hmem := List.all_eq_true.mp h w (mem_words hws hw hall)
    exact hname (List.contains_iff_mem.mp hmem)
  · cases h

end Regex

/-! ## No match runs on -/

/-- No rule accepts `u` with a part of `v` behind it. -/
def Ends (rules : List (Rule α τ)) (u v : List α) : Prop :=
  ∀ rule ∈ rules, ∀ v₁ v₂, v = v₁ ++ v₂ → v₁ ≠ [] → rule.re.accepts (u ++ v₁) = false

variable {rules : List (Rule α τ)}

theorem ends_nil (u : List α) : Ends rules u [] := by
  intro rule _ v₁ v₂ hv hne
  exact absurd (List.append_eq_nil_iff.mp hv.symm).1 hne

theorem ends_of_forall {u v : List α} {a : α}
    (h : ∀ rule ∈ rules, ∀ v', rule.re.accepts (u ++ a :: v') = false) : Ends rules u (a :: v) := by
  intro rule hrule v₁ v₂ hv hne
  obtain ⟨b, v', rfl⟩ := List.exists_cons_of_ne_nil hne
  obtain ⟨rfl, -⟩ := List.cons.inj hv
  exact h rule hrule v'

/-- A letter that no rule allows, or none behind the first letter, ends the match. -/
theorem ends_cons {as cs : List α} {a c : α} (ha : a ∈ as) (hc : c ∈ cs)
    (h : ∀ rule ∈ rules,
      (rule.re.avoids as || cs.all fun c => (rule.re.deriv c).avoids as) = true) (u v : List α) :
    Ends rules (c :: u) (a :: v) := by
  refine ends_of_forall fun rule hrule v' => ?_
  have hmem : a ∈ u ++ a :: v' := by simp
  rw [← Bool.not_eq_true, Regex.accepts_iff]
  intro hw
  rcases Bool.or_eq_true_iff.mp (h rule hrule) with hrule | hrule
  · exact Regex.notMem_of_avoids ha hrule hw (List.mem_cons_of_mem c hmem)
  · have hderiv := List.all_eq_true.mp hrule c hc
    exact Regex.notMem_of_avoids ha hderiv ((Regex.mem_deriv _ _ _).mpr hw) hmem

/-- A closing letter ends the match, whatever is behind it. -/
theorem ends_close {a c : α} (h : ∀ rule ∈ rules, (rule.re.deriv c).closes [a] = true)
    (u v : List α) (b : α) : Ends rules (c :: (u ++ [a])) (b :: v) := by
  refine ends_of_forall fun rule hrule v' => ?_
  rw [← Bool.not_eq_true, Regex.accepts_iff, List.cons_append, ← Regex.mem_deriv, List.append_assoc]
  intro hw
  have hnil := Regex.eq_nil_of_closes List.mem_cons_self (h rule hrule) hw
  exact absurd hnil (List.cons_ne_nil b v')

/-- A single letter behind which no rule goes on. -/
theorem ends_spent {a : α} (h : ∀ rule ∈ rules, (rule.re.deriv a).spent = true) (v : List α) :
    Ends rules [a] v := by
  intro rule hrule v₁ v₂ _ hne
  exact Regex.accepts_of_spent (h rule hrule) hne

/-! ## No match stops short -/

/-- What the first rule that accepts the whole text yields. -/
def whole : List (Rule α τ) → List α → Option (Option τ)
  | [], _ => none
  | rule :: rules, u => if h : rule.re.accepts u = true then some (rule.action u h) else whole rules u

theorem whole_cons_of_accepts {rule : Rule α τ} {u : List α} (h : rule.re.accepts u = true) :
    whole (rule :: rules) u = some (rule.action u h) :=
  dif_pos h

theorem whole_cons_of_rejects {rule : Rule α τ} {u : List α} (h : rule.re.accepts u = false) :
    whole (rule :: rules) u = whole rules u :=
  dif_neg (by rw [h]; exact Bool.false_ne_true)

/-- Rules of which each has one word: the table that they stand for is looked up. -/
theorem whole_words [DecidableEq α] (table : List (List α × τ)) (u : List α) :
    whole (table.map fun p => (⟨Regex.word p.1, fun _ _ => some p.2⟩ : Rule α τ)) u =
      (table.lookup u).map some := by
  induction table with
  | nil => rfl
  | cons p table ih =>
      rw [List.map_cons, List.lookup_cons]
      by_cases hu : u = p.1
      · have haccepts : (Regex.word p.1).accepts u = true :=
          (Regex.accepts_iff _ _).mpr (Regex.mem_word.mpr hu)
        rw [whole_cons_of_accepts haccepts, beq_iff_eq.mpr hu]
        rfl
      · have hrejects : (Regex.word p.1).accepts u = false := by
          rw [← Bool.not_eq_true, Regex.accepts_iff, Regex.mem_word]
          exact hu
        rw [whole_cons_of_rejects hrejects, ih, beq_eq_false_iff_ne.mpr hu]

/-- The first of two lists of rules has priority. -/
theorem whole_append (rules rules' : List (Rule α τ)) (u : List α) :
    whole (rules ++ rules') u = (whole rules u).or (whole rules' u) := by
  induction rules with
  | nil => rfl
  | cons rule rules ih =>
      rw [List.cons_append]
      by_cases h : rule.re.accepts u = true
      · rw [whole_cons_of_accepts h, whole_cons_of_accepts h]
        rfl
      · rw [Bool.not_eq_true] at h
        rw [whole_cons_of_rejects h, whole_cons_of_rejects h, ih]

theorem whole_of_rejects {u : List α} (h : ∀ rule ∈ rules, rule.re.accepts u = false) :
    whole rules u = none := by
  induction rules with
  | nil => rfl
  | cons rule rules ih =>
      obtain ⟨hrule, hrules⟩ := List.forall_mem_cons.mp h
      rw [whole_cons_of_rejects hrule, ih hrules]

/-- A match of a rule is within the text that ends it. -/
theorem le_of_ends {u v : List α} (hends : Ends rules u v) {rule : Rule α τ} (hrule : rule ∈ rules)
    {n : ℕ} (hn : n ≤ (u ++ v).length) (h : rule.re.accepts ((u ++ v).take n) = true) :
    n ≤ u.length := by
  by_contra hlong
  rw [List.length_append] at hn
  have htake : (u ++ v).take n = u ++ v.take (n - u.length) := by
    rw [List.take_append, List.take_of_length_le (by omega)]
  rw [htake] at h
  have hne : v.take (n - u.length) ≠ [] := by
    rw [ne_eq, List.take_eq_nil_iff]
    rintro (h0 | rfl)
    · omega
    · simp at hn
      omega
  rw [hends rule hrule _ _ (List.take_append_drop _ v).symm hne] at h
  cases h

/-- The match of a rule that accepts the text is the text. -/
theorem Rule.longest_of_accepts {rule : Rule α τ} {u v : List α} (hu : u ≠ [])
    (hends : Ends [rule] u v) (h : rule.re.accepts u = true) :
    rule.longest (u ++ v) = some (u.length, rule.action u h) := by
  have htake : (u ++ v).take u.length = u := List.take_left
  obtain ⟨n, hn, hle⟩ := Regex.longest_max (List.length_pos_of_ne_nil hu)
    (by simp : u.length ≤ (u ++ v).length) (by rw [htake]; exact h)
  obtain ⟨-, hbound, haccepts⟩ := Regex.longest_sound hn
  obtain rfl : n = u.length :=
    Nat.le_antisymm (le_of_ends hends List.mem_cons_self hbound haccepts) hle
  have haction : ∀ (w : List α) (hw : rule.re.accepts w = true), w = u →
      rule.action w hw = rule.action u h := by
    rintro w hw rfl
    rfl
  unfold longest
  split
  · next hnone =>
    rw [hn] at hnone
    cases hnone
  · next k hk =>
    obtain rfl : u.length = k := Option.some.inj (hn.symm.trans hk)
    rw [haction _ _ htake]

/-- The match of a rule that does not accept the text is shorter. -/
theorem Rule.longest_of_rejects {rule : Rule α τ} {u v : List α} (hends : Ends [rule] u v)
    (h : rule.re.accepts u = false) {n : ℕ} {t : Option τ} (hn : rule.longest (u ++ v) = some (n, t)) :
    n < u.length := by
  unfold longest at hn
  split at hn
  · cases hn
  · next k hk =>
    cases hn
    obtain ⟨-, hbound, haccepts⟩ := Regex.longest_sound hk
    refine lt_of_le_of_ne (le_of_ends hends List.mem_cons_self hbound haccepts) ?_
    rintro rfl
    rw [List.take_left, h] at haccepts
    cases haccepts

/-- **The text is chosen**, by the first rule that accepts all of it. -/
theorem choose_append {u v : List α} {t : Option τ} (hu : u ≠ []) (hends : Ends rules u v)
    (h : whole rules u = some t) : choose rules (u ++ v) = some (u.length, t) := by
  induction rules with
  | nil => cases h
  | cons rule rules ih =>
      have hfirst : Ends [rule] u v := by
        intro rule' hrule'
        rw [List.mem_singleton.mp hrule']
        exact hends rule List.mem_cons_self
      have hlater : Ends rules u v := fun rule' hrule' => hends rule' (List.mem_cons_of_mem _ hrule')
      rw [choose]
      by_cases haccepts : rule.re.accepts u = true
      · rw [whole_cons_of_accepts haccepts] at h
        cases h
        rw [Rule.longest_of_accepts hu hfirst haccepts]
        cases hc : choose rules (u ++ v) with
        | none => rfl
        | some later =>
            obtain ⟨n, t'⟩ := later
            obtain ⟨rule', hrule', hw, -⟩ := choose_sound hc
            have hle := le_of_ends hlater hrule' (choose_bounds hc).2 hw
            exact if_neg (Nat.not_lt.mpr hle)
      · rw [Bool.not_eq_true] at haccepts
        rw [whole_cons_of_rejects haccepts] at h
        rw [ih hlater h]
        cases hm : rule.longest (u ++ v) with
        | none => rfl
        | some m =>
            obtain ⟨n, t'⟩ := m
            exact if_pos (Rule.longest_of_rejects hfirst haccepts hm)

/-- **The text is the first lexeme.** -/
theorem scan_append {u v : List α} {t : Option τ} (hu : u ≠ []) (hends : Ends rules u v)
    (h : whole rules u = some t) :
    scan rules (u ++ v) = (t.map (Lexeme.mk u)).toList ++ scan rules v := by
  rw [scan_of_choose (choose_append hu hends h), List.take_left, List.drop_left]

end Lex
