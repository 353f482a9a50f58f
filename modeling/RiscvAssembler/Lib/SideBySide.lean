import RiscvAssembler.Lib.Runs

/-!
# Two runs side by side

A property that relates two runs of one machine is proved along an alignment of their inputs: a list of
pairs in which either side may be missing, so that the other run takes a step alone.

* `Alike R x x'`: both computations fail, or both succeed in related states.
* `run_pairs`: what every pair of aligned steps keeps, two aligned runs keep. The relation may
  depend on the inputs consumed so far.
* `run_in_step`: the case in which every step of one run goes with a step of the other; `run_map`: the
  one in which it is a function of the other.
* `along`: a check on every input of a run, in the state that it meets; `run_along`: what two runs over the
  same inputs keep, if every input passes it.
* `Insertion extra as bs`: the second list is the first with elements inserted, each of the given
  kind.

Nothing here names a particular machine.
-/

namespace Runs

variable {σ ρ ε : Type*}

/-- Take a step for an input that is there. -/
def stepOption (step : σ → ρ → Except ε σ) (s : σ) : Option ρ → Except ε σ
  | some r => step s r
  | none => .ok s

/-- Both computations fail, or both succeed and their values are related. -/
def Alike (R : σ → σ → Prop) : Except ε σ → Except ε σ → Prop
  | .ok t, .ok t' => R t t'
  | .error _, .error _ => True
  | _, _ => False

variable {step : σ → ρ → Except ε σ} {R : σ → σ → Prop}

theorem Alike.of_ok {x x' : Except ε σ} (h : Alike R x x') {t : σ} (hx : x = .ok t) :
    ∃ t', x' = .ok t' ∧ R t t' := by
  subst hx
  cases x' with
  | error e => cases h
  | ok t' => exact ⟨t', rfl, h⟩

theorem Alike.of_error {x x' : Except ε σ} (h : Alike R x x') {e : ε} (hx : x = .error e) :
    ∃ e', x' = .error e' := by
  subst hx
  cases x' with
  | error e' => exact ⟨e', rfl⟩
  | ok t' => cases h

/-- What follows for the values of computations that end alike. -/
theorem Alike.mono {S : σ → σ → Prop} {x x' : Except ε σ} (h : Alike R x x')
    (hRS : ∀ t t', x = .ok t → x' = .ok t' → R t t' → S t t') : Alike S x x' := by
  cases x with
  | error e => cases x' <;> exact h
  | ok t =>
      cases x' with
      | error e' => exact h
      | ok t' => exact hRS t t' rfl rfl h

/-- Computations that succeed together end alike if their values are related. -/
theorem alike_of_ok_iff {x x' : Except ε σ} (hiff : (∃ t, x = .ok t) ↔ ∃ t', x' = .ok t')
    (hR : ∀ t t', x = .ok t → x' = .ok t' → R t t') : Alike R x x' := by
  cases x with
  | error e =>
      cases x' with
      | error e' => trivial
      | ok t' => simp at hiff
  | ok t =>
      cases x' with
      | error e' => simp at hiff
      | ok t' => exact hR t t' rfl rfl

theorem run_stepOption (s : σ) (r : Option ρ) : run step s r.toList = stepOption step s r := by
  cases r with
  | none => rfl
  | some r => exact run_singleton s r

theorem filterMap_concat {α β : Type*} (f : α → Option β) (xs : List α) (x : α) :
    (xs ++ [x]).filterMap f = xs.filterMap f ++ (f x).toList := by
  rw [List.filterMap_append]
  cases h : f x <;> simp [h]

/-- **Two aligned runs.** A relation that holds at the start and is kept by every aligned pair of
steps holds at the end, or both runs fail. -/
theorem run_pairs (I : List (Option ρ × Option ρ) → σ → σ → Prop) {s₀ s₀' : σ} (h₀ : I [] s₀ s₀')
    (ps : List (Option ρ × Option ρ))
    (hstep : ∀ xs x ys s s', ps = xs ++ x :: ys → run step s₀ (xs.filterMap Prod.fst) = .ok s →
      run step s₀' (xs.filterMap Prod.snd) = .ok s' → I xs s s' →
      Alike (I (xs ++ [x])) (stepOption step s x.1) (stepOption step s' x.2)) :
    Alike (I ps) (run step s₀ (ps.filterMap Prod.fst)) (run step s₀' (ps.filterMap Prod.snd)) := by
  induction ps using List.reverseRecOn with
  | nil => exact h₀
  | append_singleton ps x ih =>
      have hprefix := ih fun xs y ys s s' hps => hstep xs y (ys ++ [x]) s s' (by simp [hps])
      rw [filterMap_concat, filterMap_concat, run_append, run_append]
      cases hs : run step s₀ (ps.filterMap Prod.fst) with
      | error e =>
          cases hs' : run step s₀' (ps.filterMap Prod.snd) with
          | error e' => trivial
          | ok s' =>
              rw [hs, hs'] at hprefix
              cases hprefix
      | ok s =>
          cases hs' : run step s₀' (ps.filterMap Prod.snd) with
          | error e' =>
              rw [hs, hs'] at hprefix
              cases hprefix
          | ok s' =>
              rw [hs, hs'] at hprefix
              simp only [Except.bind, run_stepOption]
              exact hstep ps x [] s s' rfl hs hs' hprefix

/-- **Two runs in step**, the second one with other inputs for those of the first. -/
theorem run_map (g : ρ → ρ) {s₀ s₀' : σ} (h₀ : R s₀ s₀') {rs : List ρ}
    (hstep : ∀ pre r post s s', rs = pre ++ r :: post → run step s₀ pre = .ok s → R s s' →
      Alike R (step s r) (step s' (g r))) :
    Alike R (run step s₀ rs) (run step s₀' (rs.map g)) := by
  induction rs using List.reverseRecOn with
  | nil => exact h₀
  | append_singleton rs r ih =>
      have hprefix := ih fun pre r' post s s' hsplit => hstep pre r' (post ++ [r]) s s' (by simp [hsplit])
      rw [List.map_append, List.map_singleton, run_append, run_append]
      cases hs : run step s₀ rs with
      | error e =>
          obtain ⟨e', hs'⟩ := hprefix.of_error hs
          rw [hs']
          trivial
      | ok s =>
          obtain ⟨s', hs', h⟩ := hprefix.of_ok hs
          rw [hs']
          simp only [Except.bind, run_singleton]
          exact hstep rs r [] s s' rfl hs h

/-- Every input of the run passes a check in the state that it meets. -/
def along (step : σ → ρ → Except ε σ) (check : σ → ρ → Bool) : σ → List ρ → Bool
  | _, [] => true
  | s, r :: rs =>
    check s r && match step s r with
      | .ok t => along step check t rs
      | .error _ => true

/-- **Two runs over the same inputs**, each of which passes the check in the first run. -/
theorem run_along {check : σ → ρ → Bool} {s s' : σ} {rs : List ρ} (hrs : along step check s rs = true)
    (hstep : ∀ s s' r, r ∈ rs → check s r = true → R s s' → Alike R (step s r) (step s' r))
    (h : R s s') : Alike R (run step s rs) (run step s' rs) := by
  induction rs generalizing s s' with
  | nil => exact h
  | cons r rs ih =>
      rw [along, Bool.and_eq_true] at hrs
      obtain ⟨hr, hrs⟩ := hrs
      have hfirst := hstep s s' r List.mem_cons_self hr h
      rw [run, run]
      cases ht : step s r with
      | error e =>
          obtain ⟨e', ht'⟩ := hfirst.of_error ht
          rw [ht']
          trivial
      | ok t =>
          obtain ⟨t', ht', hR⟩ := hfirst.of_ok ht
          rw [ht] at hrs
          rw [ht']
          exact ih hrs (fun s s' r hr => hstep s s' r (List.mem_cons_of_mem _ hr)) hR

/-! ## Insertions -/

/-- The second list is the first with elements of a kind inserted. -/
inductive Insertion {α : Type*} (extra : α → Prop) : List α → List α → Prop
  | nil : Insertion extra [] []
  | keep {as bs} (a : α) : Insertion extra as bs → Insertion extra (a :: as) (a :: bs)
  | insert {as bs} (b : α) : extra b → Insertion extra as bs → Insertion extra as (b :: bs)

theorem Insertion.refl {α : Type*} {extra : α → Prop} (as : List α) : Insertion extra as as := by
  induction as with
  | nil => exact .nil
  | cons a as ih => exact ih.keep a

/-- An insertion as an alignment, if every element stands for a list of inputs. -/
theorem Insertion.exists_pairs {α : Type*} {extra : α → Prop} {as bs : List α}
    (h : Insertion extra as bs) (f : α → List ρ) :
    ∃ ps : List (Option ρ × Option ρ),
      ps.filterMap Prod.fst = as.flatMap f ∧ ps.filterMap Prod.snd = bs.flatMap f ∧
      ∀ x ∈ ps, (∃ r, x = (some r, some r)) ∨ ∃ b r, extra b ∧ r ∈ f b ∧ x = (none, some r) := by
  induction h with
  | nil => exact ⟨[], rfl, rfl, by simp⟩
  | keep a _ ih =>
      obtain ⟨ps, hfst, hsnd, hps⟩ := ih
      refine ⟨(f a).map (fun r => (some r, some r)) ++ ps, ?_, ?_, ?_⟩
      · rw [List.filterMap_append, hfst, List.filterMap_map, List.flatMap_cons]
        exact congrArg (· ++ _) List.filterMap_some
      · rw [List.filterMap_append, hsnd, List.filterMap_map, List.flatMap_cons]
        exact congrArg (· ++ _) List.filterMap_some
      · intro x hx
        rcases List.mem_append.mp hx with hx | hx
        · obtain ⟨r, -, rfl⟩ := List.mem_map.mp hx
          exact Or.inl ⟨r, rfl⟩
        · exact hps x hx
  | insert b hb _ ih =>
      obtain ⟨ps, hfst, hsnd, hps⟩ := ih
      refine ⟨(f b).map (fun r => (none, some r)) ++ ps, ?_, ?_, ?_⟩
      · rw [List.filterMap_append, hfst, List.filterMap_map]
        exact congrArg (· ++ _) (List.filterMap_eq_nil_iff.mpr fun _ _ => rfl)
      · rw [List.filterMap_append, hsnd, List.filterMap_map, List.flatMap_cons]
        exact congrArg (· ++ _) List.filterMap_some
      · intro x hx
        rcases List.mem_append.mp hx with hx | hx
        · obtain ⟨r, hr, rfl⟩ := List.mem_map.mp hx
          exact Or.inr ⟨b, r, hb, hr, rfl⟩
        · exact hps x hx

end Runs
