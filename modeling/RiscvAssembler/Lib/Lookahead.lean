import RiscvAssembler.Lib.Lr
import RiscvAssembler.Lib.Runs

/-!
# How much has been read when a reduction is made

A parser asks for a terminal when it needs one. A reduction that a shift completes is made before the next
terminal is asked for, and a default reduction afterwards.

* `Automaton.timed`: the reductions of a run, each with the number of terminals asked for.
* `Automaton.timed_history`: what every step preserves holds where a reduction is made.
* `Item.Defaults`: what an item is reduced to by default.
-/

namespace Lr

open Runs

variable {σ τ ρ α β : Type}

/-! ## Items -/

namespace Item

/-- What the item, or one behind it, is reduced to by default, and not because it is complete, has the
property. -/
inductive Defaults (P : α → Prop) : Item τ α → Prop
  | reduce (a : α) : Defaults P (reduce a)
  | shift {d : Option α} {next : τ → Option (Item τ α)} (hd : ∀ a, d = some a → P a)
    (hnext : ∀ t item, next t = some item → Defaults P item) : Defaults P (shift d next)

variable {P : α → Prop}

theorem Defaults.next {item item' : Item τ α} {t : τ} (h : item.Defaults P)
    (hnext : item.next t = some item') : item'.Defaults P := by
  cases h with
  | reduce a => cases hnext
  | shift _ h => exact h t item' hnext

theorem Defaults.holds {item : Item τ α} {a : α} (h : item.Defaults P) (hd : item.default = some a)
    (hreduce : item ≠ .reduce a) : P a := by
  cases h with
  | reduce b => exact absurd (congrArg Item.reduce (Option.some.inj hd)) hreduce
  | shift h _ => exact h a hd

theorem defaults_expect {d : Option α} {T : Terminal τ β} {k : β → Item τ α} (hd : ∀ a, d = some a → P a)
    (hk : ∀ b, (k b).Defaults P) : (expect d T k).Defaults P := by
  refine .shift hd fun t item hnext => ?_
  obtain ⟨b, -, rfl⟩ := Option.map_eq_some_iff.mp hnext
  exact hk b

theorem defaults_or {item item' : Item τ α} (h : item.Defaults P) (h' : item'.Defaults P)
    (hd : item.default = none) (hd' : item'.default = none) : (item.or item').Defaults P := by
  refine .shift (fun a ha => ?_) fun t next hnext => ?_
  · rw [hd, hd'] at ha
    cases ha
  · rcases Option.or_eq_some_iff.mp hnext with hnext | ⟨-, hnext⟩
    · exact h.next hnext
    · exact h'.next hnext

end Item

/-! ## Runs -/

namespace Automaton

variable (A : Automaton σ τ ρ)

/-- The reductions of a run in front of which `n` terminals have been read, each with the number of
terminals that have been asked for when it is made; the end of the input counts as one. -/
def timed : σ → ℕ → List τ → List (ρ × ℕ)
  | s, n, [] => (A.settle (A.rank s) s none).1.map (·, n + 1)
  | s, n, t :: ts =>
    (A.settle (A.rank s) s (some t)).1.map (·, n + 1) ++
      match A.shift (A.settle (A.rank s) s (some t)).2 t with
      | none => []
      | some (rs, s') => rs.map (·, n + 1) ++ timed s' (n + 1) ts

variable {A}

theorem map_mark (rs : List ρ) (n : ℕ) : (rs.map (·, n)).map Prod.fst = rs := by
  rw [List.map_map]
  exact List.map_id rs

/-- The reductions are those of the run. -/
theorem map_timed (s : σ) (n : ℕ) (ts : List τ) :
    (A.timed s n ts).map Prod.fst = (A.parse s ts).reductions := by
  induction ts generalizing s n with
  | nil => exact map_mark _ _
  | cons t ts ih =>
      rw [timed, parse, List.map_append, map_mark]
      cases A.shift (A.settle (A.rank s) s (some t)).2 t with
      | none => exact List.append_nil _
      | some p => simp only [List.map_append, map_mark, Outcome.after, List.append_assoc, ih p.2]

/-- No default reduction, or one and those behind it. -/
theorem settle_cases (n : ℕ) (s : σ) (t : Option τ) : A.settle n s t = ([], s) ∨ ∃ m r s',
    n = m + 1 ∧ A.default s = some (r, s') ∧ A.settle n s t = (r :: (A.settle m s' t).1, (A.settle m s' t).2) := by
  cases n with
  | zero => exact Or.inl rfl
  | succ m =>
      by_cases ht : A.canShift s t = true
      · exact Or.inl (settle_of_canShift ht)
      · cases hd : A.default s with
        | none => exact Or.inl (settle_of_stop hd)
        | some p => exact Or.inr ⟨m, p.1, p.2, rfl, rfl, by simp only [settle, if_neg ht, hd]⟩

/-- **Default reductions**, cut somewhere: what each of them keeps holds there. -/
theorem settle_history {I : List ρ → σ → Prop}
    (hdefault : ∀ {rs s r s'}, I rs s → A.default s = some (r, s') → I (rs ++ [r]) s') {n : ℕ} {s : σ}
    {t : Option τ} {rs front back : List ρ} (hs : I rs s) (h : (A.settle n s t).1 = front ++ back) :
    ∃ s₁, I (rs ++ front) s₁ ∧ (back = [] → s₁ = (A.settle n s t).2) ∧
      ∀ r back', back = r :: back' → ∃ s₂, A.default s₁ = some (r, s₂) := by
  induction n generalizing s rs front with
  | zero =>
      obtain ⟨rfl, rfl⟩ := List.append_eq_nil_iff.mp h.symm
      rw [List.append_nil]
      exact ⟨s, hs, fun _ => rfl, nofun⟩
  | succ n ih =>
      rcases settle_cases (n + 1) s t with hstop | ⟨_, r, s', ⟨⟩, hd, hgo⟩
      · rw [hstop] at h ⊢
        obtain ⟨rfl, rfl⟩ := List.append_eq_nil_iff.mp h.symm
        rw [List.append_nil]
        exact ⟨s, hs, fun _ => rfl, nofun⟩
      · rw [hgo] at h ⊢
        cases front with
        | nil =>
            rw [List.append_nil]
            refine ⟨s, hs, ?_, ?_⟩
            · rintro rfl
              cases h
            · rintro r' back' rfl
              obtain ⟨rfl, -⟩ := List.cons.inj h
              exact ⟨s', hd⟩
        | cons r' front =>
            obtain ⟨rfl, hrest⟩ := List.cons.inj h
            have hnext := ih (hdefault hs hd) hrest
            rw [List.append_assoc, List.singleton_append] at hnext
            exact hnext

theorem of_map_mark {rs : List ρ} {n k : ℕ} {front back : List (ρ × ℕ)} {r : ρ}
    (h : rs.map (·, n) = front ++ (r, k) :: back) :
    ∃ a b, rs = a ++ r :: b ∧ front.map Prod.fst = a ∧ k = n := by
  obtain ⟨a, rest, rfl, rfl, hrest⟩ := List.map_eq_append_iff.mp h
  obtain ⟨r', b, rfl, hr, -⟩ := List.map_eq_cons_iff.mp hrest
  cases hr
  exact ⟨a, b, rfl, map_mark a n, rfl⟩

/-- A default reduction is made in a state that has it. -/
theorem settle_made {I : List ρ → σ → Prop}
    (hdefault : ∀ {rs s r s'}, I rs s → A.default s = some (r, s') → I (rs ++ [r]) s') {m n k : ℕ} {s : σ}
    {t : Option τ} {rs : List ρ} {front back : List (ρ × ℕ)} {r : ρ} (hs : I rs s)
    (h : (A.settle m s t).1.map (·, n) = front ++ (r, k) :: back) :
    k = n ∧ ∃ s₁ s₂, I (rs ++ front.map Prod.fst) s₁ ∧ A.default s₁ = some (r, s₂) := by
  obtain ⟨a, b, hsettle, rfl, rfl⟩ := of_map_mark h
  obtain ⟨s₁, hI, -, hnext⟩ := settle_history hdefault hs hsettle
  obtain ⟨s₂, hd⟩ := hnext r b rfl
  exact ⟨rfl, s₁, s₂, hI, hd⟩

/-- **Where a reduction is made**: with the shift of the terminal that was read last, or by default, with the
last one, if there was one, as the lookahead. What links the input and the reductions to the state, if every
step keeps it, holds in front of that. -/
theorem timed_history (I : List τ → List ρ → σ → Prop)
    (hshift : ∀ {us rs s t rs' s'}, I us rs s → A.shift s t = some (rs', s') →
      I (us ++ [t]) (rs ++ rs') s')
    (hdefault : ∀ {us rs s r s'}, I us rs s → A.default s = some (r, s') → I us (rs ++ [r]) s')
    {us : List τ} {rs : List ρ} {s : σ} (hs : I us rs s) {n : ℕ} {ts : List τ} {front back : List (ρ × ℕ)}
    {r : ρ} {k : ℕ} (h : A.timed s n ts = front ++ (r, k) :: back) :
    ∃ read rest rs₁ s₁, ts = read ++ rest ∧ k = n + read.length + 1 ∧ I (us ++ read) rs₁ s₁ ∧
      ((∃ t rest' a b s₂, rest = t :: rest' ∧ A.shift s₁ t = some (a ++ r :: b, s₂) ∧
          rs₁ ++ a = rs ++ front.map Prod.fst) ∨
        ∃ s₂, A.default s₁ = some (r, s₂) ∧ rs₁ = rs ++ front.map Prod.fst) := by
  induction ts generalizing us rs s n front with
  | nil =>
      obtain ⟨rfl, s₁, s₂, hI, hd⟩ := settle_made (I := I us) hdefault hs h
      rw [← List.append_nil us] at hI
      exact ⟨[], [], _, s₁, rfl, rfl, hI, Or.inr ⟨s₂, hd, rfl⟩⟩
  | cons t ts ih =>
      rw [timed] at h
      rcases append_eq_append_cons_cases h with ⟨back', hfirst⟩ | ⟨front, rfl, hlater⟩
      · obtain ⟨rfl, s₁, s₂, hI, hd⟩ := settle_made (I := I us) hdefault hs hfirst
        rw [← List.append_nil us] at hI
        exact ⟨[], t :: ts, _, s₁, rfl, rfl, hI, Or.inr ⟨s₂, hd, rfl⟩⟩
      · obtain ⟨s₁, hI, hs₁, -⟩ := settle_history (I := I us) hdefault hs (List.append_nil _).symm
        obtain rfl := hs₁ rfl
        rw [List.map_append, map_mark]
        cases hnext : A.shift (A.settle (A.rank s) s (some t)).2 t with
        | none =>
            rw [hnext] at hlater
            exact absurd hlater (by simp)
        | some p =>
            simp only [hnext] at hlater
            rcases append_eq_append_cons_cases hlater with ⟨back', hshifted⟩ | ⟨front, rfl, hlast⟩
            · obtain ⟨a, b, hp, rfl, rfl⟩ := of_map_mark hshifted
              have hI' := hI
              rw [← List.append_nil us] at hI'
              refine ⟨[], t :: ts, _, _, rfl, rfl, hI', Or.inl ⟨t, ts, _, b, p.2, rfl, ?_, List.append_assoc _ _ _⟩⟩
              rw [hnext, ← hp]
            · obtain ⟨read, rest, rs₁, s₁, rfl, rfl, hI₁, hmade⟩ := ih (hshift hI hnext) hlast
              rw [List.append_assoc, List.singleton_append] at hI₁
              refine ⟨t :: read, rest, rs₁, s₁, rfl, ?_, hI₁, ?_⟩
              · rw [List.length_cons]
                omega
              · rw [List.map_append, map_mark]
                simpa only [List.append_assoc] using hmade

end Automaton

end Lr
