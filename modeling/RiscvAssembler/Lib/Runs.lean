import Mathlib.Data.List.Induction

/-!
# Runs of a partial step function

A machine that consumes a list of inputs one at a time and may stop with an error is a function
`step : σ → ρ → Except ε σ`; `run step s rs` feeds it the inputs `rs` from the state `s`.

* **Sequences** (`exists_mapM_ok`, `ok_of_mapM`): a traversal succeeds exactly when each of its
  computations does.
* **Composition** (`run_append_eq_ok`, `run_cons_eq_ok`): a run over a concatenation
  is a run over the first part followed by one over the second.
* **Invariants** (`run_invariant`): what every step preserves, every run preserves.
* **Histories** (`run_history`): a property that links a state to the list of inputs consumed so
  far, and is kept by every step, holds at the end of every run.
* **Causes** (`run_switch`): what becomes true during a run becomes true at one of its steps.
* **Occurrences** (`run_split`, `run_at`, `run_after`, `append_cons_cases`): a run cut open around one of
  its inputs, and the order of two such places.
* **Relations** (`run_rel`): a reflexive transitive relation that contains the steps contains the
  runs. `run_project` is the case of a projection that no step changes.
* **Latches** (`latch_iff`): for a step function that cannot fail, what is up at the end of a sequence of
  steps, by the steps that raise it and those that take it down.
* **Parts** (`part_foldl`): a part of the state is made by the steps that do not leave it alone.

Nothing here names a particular machine.
-/

namespace Runs

variable {σ ρ ε : Type*}

/-- `x >>= f` succeeds iff `x` does and `f` does on its value. -/
theorem bind_eq_ok {α β : Type*} {x : Except ε α} {f : α → Except ε β} {b : β} :
    x.bind f = .ok b ↔ ∃ a, x = .ok a ∧ f a = .ok b := by
  cases x <;> simp [Except.bind]

/-- A computation that is found to succeed has a value. -/
theorem exists_of_isOk {α : Type*} {x : Except ε α} (h : x.isOk = true) : ∃ a, x = .ok a := by
  cases x with
  | error e => cases h
  | ok a => exact ⟨a, rfl⟩

/-- A guard that stops with an error succeeds iff its condition holds. -/
theorem ite_error_eq_ok {c : Prop} [Decidable c] {a t : σ} {e : ε} :
    (if c then .ok a else .error e : Except ε σ) = .ok t ↔ c ∧ a = t := by
  split_ifs with hc <;> simp [hc]

/-- When such a guard lets a computation pass. -/
theorem exists_ite_error_eq_ok {c : Prop} [Decidable c] {a : σ} {e : ε} :
    (∃ t, (if c then .ok a else .error e : Except ε σ) = .ok t) ↔ c := by
  split_ifs with hc <;> simp [hc]

/-- A sequence of computations that all succeed succeeds. -/
theorem exists_mapM_ok {α β : Type*} {f : α → Except ε β} {xs : List α}
    (h : ∀ x ∈ xs, ∃ y, f x = .ok y) : ∃ ys, ys.length = xs.length ∧ xs.mapM f = .ok ys := by
  induction xs with
  | nil => exact ⟨[], rfl, rfl⟩
  | cons x xs ih =>
      obtain ⟨y, hy⟩ := h x List.mem_cons_self
      obtain ⟨ys, hlen, hys⟩ := ih fun x hx => h x (List.mem_cons_of_mem _ hx)
      refine ⟨y :: ys, by rw [List.length_cons, List.length_cons, hlen], ?_⟩
      rw [List.mapM_cons, hy, hys]
      rfl

/-- What a sequence of computations that succeeds is made of. -/
theorem ok_of_mapM {α β : Type*} {f : α → Except ε β} {xs : List α} {ys : List β}
    (h : xs.mapM f = .ok ys) : ∀ x ∈ xs, ∃ y, f x = .ok y := by
  induction xs generalizing ys with
  | nil => simp
  | cons x xs ih =>
      rw [List.mapM_cons] at h
      obtain ⟨y, hy, h⟩ := bind_eq_ok.mp h
      obtain ⟨ys', hys, -⟩ := bind_eq_ok.mp h
      intro x' hx'
      rcases List.mem_cons.mp hx' with rfl | hmem
      · exact ⟨y, hy⟩
      · exact ih hys x' hmem

/-- Feed the inputs to the machine, first to last, stopping at the first error. -/
def run (step : σ → ρ → Except ε σ) : σ → List ρ → Except ε σ
  | s, [] => .ok s
  | s, r :: rs => (step s r).bind fun t => run step t rs

variable {step : σ → ρ → Except ε σ}

/-- A run over `r :: rs` is a step followed by a run. -/
theorem run_cons_eq_ok {s u : σ} {r : ρ} {rs : List ρ} :
    run step s (r :: rs) = .ok u ↔ ∃ t, step s r = .ok t ∧ run step t rs = .ok u :=
  bind_eq_ok

@[simp] theorem run_singleton (s : σ) (r : ρ) : run step s [r] = step s r := by
  simp only [run]
  cases step s r <;> rfl

/-- The run over a concatenation, as a composition. -/
theorem run_append (s : σ) (rs rs' : List ρ) :
    run step s (rs ++ rs') = (run step s rs).bind fun t => run step t rs' := by
  induction rs generalizing s with
  | nil => rfl
  | cons r rs ih =>
      simp only [List.cons_append, run]
      cases step s r with
      | error e => rfl
      | ok t => exact ih t

/-- A run over `rs ++ rs'` succeeds iff it passes through some state between the two. -/
theorem run_append_eq_ok {s u : σ} {rs rs' : List ρ} :
    run step s (rs ++ rs') = .ok u ↔ ∃ t, run step s rs = .ok t ∧ run step t rs' = .ok u := by
  rw [run_append, bind_eq_ok]

/-- Every prefix of a successful run is a successful run. -/
theorem run_prefix_ok {s u : σ} {rs rs' : List ρ} (h : run step s (rs ++ rs') = .ok u) :
    ∃ t, run step s rs = .ok t :=
  (run_append_eq_ok.mp h).imp fun _ ht => ht.1

/-- A successful run, cut open around one of its inputs. -/
theorem run_split {s u : σ} {pre post : List ρ} {r : ρ} :
    run step s (pre ++ r :: post) = .ok u ↔
      ∃ t t', run step s pre = .ok t ∧ step t r = .ok t' ∧ run step t' post = .ok u := by
  rw [run_append_eq_ok]
  constructor
  · rintro ⟨t, hpre, h⟩
    obtain ⟨t', hstep, hpost⟩ := run_cons_eq_ok.mp h
    exact ⟨t, t', hpre, hstep, hpost⟩
  · rintro ⟨t, t', hpre, hstep, hpost⟩
    exact ⟨t, hpre, run_cons_eq_ok.mpr ⟨t', hstep, hpost⟩⟩

/-- **Invariants.** A property that every step preserves holds at the end of every run from a
state that has it. -/
theorem run_invariant (I : σ → Prop) (hstep : ∀ s r t, I s → step s r = .ok t → I t)
    {s u : σ} {rs : List ρ} (hs : I s) (h : run step s rs = .ok u) : I u := by
  induction rs generalizing s with
  | nil => cases h; exact hs
  | cons r rs ih =>
      obtain ⟨t, ht, h⟩ := run_cons_eq_ok.mp h
      exact ih (hstep s r t hs ht) h

/-- **Histories.** A property linking the state to the inputs consumed so far, true of the empty
history and kept by every step, links the last state of a run to all of its inputs. -/
theorem run_history (I : List ρ → σ → Prop) {s₀ : σ} (h₀ : I [] s₀)
    (hstep : ∀ pre s r t, run step s₀ pre = .ok s → I pre s → step s r = .ok t →
      I (pre ++ [r]) t)
    {u : σ} {rs : List ρ} (h : run step s₀ rs = .ok u) : I rs u := by
  induction rs using List.reverseRecOn generalizing u with
  | nil => cases h; exact h₀
  | append_singleton rs r ih =>
      obtain ⟨t, ht, h⟩ := run_append_eq_ok.mp h
      rw [run_singleton] at h
      exact hstep rs t r u ht (ih ht) h

/-- **Relations.** A reflexive transitive relation that contains every step contains every run. -/
theorem run_rel (R : σ → σ → Prop) (hrefl : ∀ s, R s s) (htrans : ∀ s t u, R s t → R t u → R s u)
    (hstep : ∀ s r t, step s r = .ok t → R s t) {s u : σ} {rs : List ρ}
    (h : run step s rs = .ok u) : R s u := by
  induction rs generalizing s with
  | nil => cases h; exact hrefl _
  | cons r rs ih =>
      obtain ⟨t, ht, h⟩ := run_cons_eq_ok.mp h
      exact htrans s t u (hstep s r t ht) (ih h)

/-- A projection of the state that no input of the run changes is the same at its end. -/
theorem run_project {α : Type*} (f : σ → α) {s u : σ} {rs : List ρ}
    (hstep : ∀ r ∈ rs, ∀ s t, step s r = .ok t → f t = f s) (h : run step s rs = .ok u) :
    f u = f s := by
  induction rs generalizing s with
  | nil => cases h; rfl
  | cons r rs ih =>
      obtain ⟨t, ht, h⟩ := run_cons_eq_ok.mp h
      rw [ih (fun r' hr' => hstep r' (List.mem_cons_of_mem _ hr')) h,
        hstep r List.mem_cons_self s t ht]

/-- Runs are deterministic: two runs of one machine over one input end in one state. -/
theorem run_unique {s t u : σ} {rs : List ρ} (ht : run step s rs = .ok t)
    (hu : run step s rs = .ok u) : t = u :=
  Except.ok.inj (ht.symm.trans hu)

/-- A run fails at one of its inputs, behind a run that succeeds. -/
theorem run_eq_error_iff {s : σ} {rs : List ρ} :
    (∃ e, run step s rs = .error e) ↔
      ∃ pre r post t, rs = pre ++ r :: post ∧ run step s pre = .ok t ∧ ¬ ∃ u, step t r = .ok u := by
  induction rs generalizing s with
  | nil => simp [run]
  | cons r rs ih =>
      cases hstep : step s r with
      | error e =>
          refine iff_of_true ⟨e, by rw [run, hstep]; rfl⟩ ⟨[], r, rs, s, rfl, rfl, ?_⟩
          rw [hstep]
          simp
      | ok t =>
          have hrun : run step s (r :: rs) = run step t rs := by rw [run, hstep]; rfl
          rw [hrun, ih]
          constructor
          · rintro ⟨pre, r', post, t', rfl, hpre, hfail⟩
            exact ⟨r :: pre, r', post, t', rfl, run_cons_eq_ok.mpr ⟨t, hstep, hpre⟩, hfail⟩
          · rintro ⟨pre, r', post, t', heq, hpre, hfail⟩
            cases pre with
            | nil =>
                cases heq
                cases hpre
                exact absurd ⟨t, hstep⟩ hfail
            | cons r₁ pre =>
                cases heq
                obtain ⟨t₁, ht₁, hrest⟩ := run_cons_eq_ok.mp hpre
                cases hstep.symm.trans ht₁
                exact ⟨pre, r', post, t', rfl, hrest, hfail⟩

/-- An element of a concatenation is in the first part or in the second. -/
theorem append_eq_append_cons_cases {α : Type*} {xs ys pre post : List α} {a : α}
    (h : xs ++ ys = pre ++ a :: post) :
    (∃ post', xs = pre ++ a :: post') ∨ ∃ pre', pre = xs ++ pre' ∧ ys = pre' ++ a :: post := by
  rcases List.append_eq_append_iff.mp h with ⟨m, hm, hrest⟩ | ⟨m, hm, hrest⟩
  · exact Or.inr ⟨m, hm, hrest⟩
  · cases m with
    | nil => exact Or.inr ⟨[], by rw [hm, List.append_nil, List.append_nil], hrest.symm⟩
    | cons b m =>
        injection hrest with ha
        exact Or.inl ⟨m, ha ▸ hm⟩

/-- Two occurrences in one list: the first comes before the second, they are the same, or the second
comes before the first. -/
theorem append_cons_cases {α : Type*} {pre pre' post post' : List α} {a a' : α}
    (h : pre ++ a :: post = pre' ++ a' :: post') :
    (∃ m, pre' = pre ++ a :: m) ∨ (pre' = pre ∧ a' = a) ∨ ∃ m, pre = pre' ++ a' :: m := by
  rcases List.append_eq_append_iff.mp h with ⟨m, hm, hrest⟩ | ⟨m, hm, hrest⟩
  · cases m with
    | nil =>
        injection hrest with ha
        exact Or.inr (Or.inl ⟨by simpa using hm, ha.symm⟩)
    | cons b m =>
        injection hrest with ha
        exact Or.inl ⟨m, ha ▸ hm⟩
  · cases m with
    | nil =>
        injection hrest with ha
        exact Or.inr (Or.inl ⟨by simpa using hm.symm, ha⟩)
    | cons b m =>
        injection hrest with ha
        exact Or.inr (Or.inr ⟨m, ha ▸ hm⟩)

/-- **Causes.** A property that holds at the end of a run and not at its start is brought about by
some step of the run. -/
theorem run_switch (P : σ → Prop) {s u : σ} {rs : List ρ} (hs : ¬ P s) (hu : P u)
    (h : run step s rs = .ok u) :
    ∃ pre r post t t', rs = pre ++ r :: post ∧ run step s pre = .ok t ∧ step t r = .ok t' ∧
      ¬ P t ∧ P t' := by
  induction rs generalizing s with
  | nil => cases h; exact absurd hu hs
  | cons r rs ih =>
      obtain ⟨t, ht, h⟩ := run_cons_eq_ok.mp h
      by_cases hP : P t
      · exact ⟨[], r, rs, s, t, rfl, rfl, ht, hs, hP⟩
      · obtain ⟨pre, r', post, t', t'', rfl, hpre, hstep, hrest⟩ := ih hP h
        exact ⟨r :: pre, r', post, t', t'', rfl, run_cons_eq_ok.mpr ⟨t, ht, hpre⟩, hstep, hrest⟩

/-- The part of a run behind its beginning. -/
theorem run_behind {s t u : σ} {rs rs' : List ρ} (ht : run step s rs = .ok t)
    (hu : run step s (rs ++ rs') = .ok u) : run step t rs' = .ok u := by
  obtain ⟨t', ht', hu⟩ := run_append_eq_ok.mp hu
  cases run_unique ht ht'
  exact hu

/-- The step of a run behind its beginning, and the part behind that. -/
theorem run_at {s t u : σ} {pre post : List ρ} {r : ρ} (ht : run step s pre = .ok t)
    (hu : run step s (pre ++ r :: post) = .ok u) :
    ∃ t', step t r = .ok t' ∧ run step t' post = .ok u :=
  run_cons_eq_ok.mp (run_behind ht hu)

/-- The part of a run between one of its steps and its end. -/
theorem run_after {s₀ s t u : σ} {pre post : List ρ} {r : ρ} (hs : run step s₀ pre = .ok s)
    (ht : step s r = .ok t) (hu : run step s₀ (pre ++ r :: post) = .ok u) :
    run step t post = .ok u := by
  obtain ⟨t', ht', hu⟩ := run_at hs hu
  cases Except.ok.inj (ht.symm.trans ht')
  exact hu

/-- **Latches.** A flag that some steps set and others clear is up after a sequence of steps exactly when
one of them has set it and none behind that one has cleared it. -/
theorem latch_iff (step : σ → ρ → σ) (s₀ : σ) (flag : σ → Prop) (sets : σ → ρ → Prop)
    (clears : ρ → Prop) (h₀ : ¬ flag s₀)
    (hstep : ∀ (pre : List ρ) (r : ρ), flag (step (pre.foldl step s₀) r) ↔
      sets (pre.foldl step s₀) r ∨ flag (pre.foldl step s₀) ∧ ¬ clears r) (rs : List ρ) :
    flag (rs.foldl step s₀) ↔
      ∃ pre r post, rs = pre ++ r :: post ∧ sets (pre.foldl step s₀) r ∧ ∀ r' ∈ post, ¬ clears r' := by
  induction rs using List.reverseRecOn with
  | nil => simp [h₀]
  | append_singleton rs r ih =>
      rw [List.foldl_append, List.foldl_cons, List.foldl_nil, hstep, ih]
      constructor
      · rintro (hsets | ⟨⟨pre, r', post, rfl, hsets, hpost⟩, hr⟩)
        · exact ⟨rs, r, [], rfl, hsets, fun _ hmem => absurd hmem List.not_mem_nil⟩
        · refine ⟨pre, r', post ++ [r], by simp, hsets, ?_⟩
          intro r'' hr''
          rcases List.mem_append.mp hr'' with hmem | hmem
          · exact hpost r'' hmem
          · exact List.mem_singleton.mp hmem ▸ hr
      · rintro ⟨pre, r', post, hsplit, hsets, hpost⟩
        rcases post.eq_nil_or_concat with rfl | ⟨post, r'', rfl⟩
        · obtain ⟨rfl, hr⟩ := List.append_inj' hsplit rfl
          cases hr
          exact Or.inl hsets
        · have hsplit' : rs ++ [r] = (pre ++ r' :: post) ++ [r''] := by simpa using hsplit
          obtain ⟨rfl, hr⟩ := List.append_inj' hsplit' rfl
          cases hr
          refine Or.inr ⟨⟨pre, r', post, rfl, hsets, fun x hx => hpost x (by simp [hx])⟩, ?_⟩
          exact hpost r (by simp)

/-- **Parts.** A part of the state that some inputs leave alone, and that the others change in a way that
depends on the part only, is made by these others. -/
theorem part_foldl {α : Type*} {step : σ → ρ → σ} (part : σ → α) (P : ρ → Bool)
    (hskip : ∀ s r, P r = false → part (step s r) = part s)
    (hstep : ∀ s s' r, P r = true → part s = part s' → part (step s r) = part (step s' r))
    (rs : List ρ) {s s' : σ} (h : part s = part s') :
    part (rs.foldl step s) = part ((rs.filter P).foldl step s') := by
  induction rs generalizing s s' with
  | nil => exact h
  | cons r rs ih =>
      cases hr : P r with
      | true =>
          rw [List.filter_cons_of_pos hr]
          exact ih (hstep s s' r hr h)
      | false =>
          rw [List.filter_cons_of_neg (by simp [hr])]
          exact ih ((hskip s r hr).trans h)

end Runs
