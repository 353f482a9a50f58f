import RiscvAssembler.Lib.Lr

/-!
# Where a shift-reduce parser stops

An automaton with default reductions can reduce in front of an error. It treats an error like an end of
the input, so that what it has done is what it does with the part in front of the error.

* `Item.Live`: the item can be completed, whatever of it has been read.
* `Automaton.parse_cut`: a run that stops is a run over what was read, and it does not depend on what is
  behind the next terminal.
-/

namespace Lr

variable {σ τ ρ α β : Type}

/-! ## Items that can be completed -/

namespace Item

/-- The item can be completed, and so can every item that it leads to. -/
inductive Live : Item τ α → Prop
  | reduce (value : α) : Live (reduce value)
  | shift {d : Option α} {next : τ → Option (Item τ α)}
    (hsome : (∃ a, d = some a) ∨ ∃ t item, next t = some item)
    (hnext : ∀ {t item}, next t = some item → Live item) : Live (shift d next)

theorem Live.next {item item' : Item τ α} {t : τ} (h : item.Live) (hnext : item.next t = some item') :
    item'.Live := by
  cases h with
  | reduce value => cases hnext
  | shift _ hlive => exact hlive hnext

/-- A live item yields something. -/
theorem Live.exists_yields {item : Item τ α} (h : item.Live) : ∃ ts a, item.Yields ts a := by
  induction h with
  | reduce value => exact ⟨[], value, rfl⟩
  | shift hsome hnext ih =>
      rcases hsome with ⟨a, rfl⟩ | ⟨t, item, hitem⟩
      · exact ⟨[], a, rfl⟩
      · obtain ⟨ts, a, hyields⟩ := ih hitem
        exact ⟨t :: ts, a, item, hitem, hyields⟩

theorem live_expect [Nonempty β] {d : Option α} {T : Terminal τ β} {k : β → Item τ α}
    (h : ∀ b, (k b).Live) : (expect d T k).Live := by
  constructor
  · obtain ⟨b⟩ := ‹Nonempty β›
    exact Or.inr ⟨T.put b, k b, by rw [T.get_eq_some.mpr rfl]; rfl⟩
  · intro t item hitem
    obtain ⟨b, -, rfl⟩ := Option.map_eq_some_iff.mp hitem
    exact h b

theorem live_or {item item' : Item τ α} (h : item.Live) (h' : item'.Live) : (item.or item').Live := by
  constructor
  · cases h with
    | reduce value => exact Or.inl ⟨value, rfl⟩
    | shift hsome _ =>
        rcases hsome with ⟨a, rfl⟩ | ⟨t, next, hnext⟩
        · exact Or.inl ⟨a, rfl⟩
        · exact Or.inr ⟨t, next, Option.or_eq_some_iff.mpr (Or.inl hnext)⟩
  · intro t next hnext
    rcases Option.or_eq_some_iff.mp hnext with hfirst | ⟨-, hsecond⟩
    · exact h.next hfirst
    · exact h'.next hsecond

end Item

/-! ## Runs that stop -/

namespace Automaton

variable {A : Automaton σ τ ρ}

/-- In front of a terminal that cannot be shifted in the end, the reductions are those at the end of the
input. -/
theorem settle_of_stuck {n : ℕ} {s : σ} {t : Option τ} (h : A.canShift (A.settle n s t).2 t = false) :
    A.settle n s t = A.settle n s none := by
  induction n generalizing s with
  | zero => rfl
  | succ n ih =>
      have hshift : A.canShift s t = false := by
        by_contra hshift
        rw [Bool.not_eq_false] at hshift
        rw [settle_of_canShift hshift, hshift] at h
        cases h
      have hend : A.canShift s none = false := rfl
      rw [settle, hshift] at h
      rw [settle, settle, hshift, hend]
      cases hd : A.default s with
      | none => rfl
      | some p =>
          have hrest : A.canShift (A.settle n p.2 t).2 t = false := by
            rw [hd] at h
            exact h
          simp only [ih hrest]

/-- **Invariants.** What every shift and every default reduction keep holds where the automaton stops.
-/
theorem parse_invariant (P : σ → Prop)
    (hshift : ∀ {s t rs s'}, P s → A.shift s t = some (rs, s') → P s')
    (hdefault : ∀ {s r s'}, P s → A.default s = some (r, s') → P s') {s : σ} (hs : P s) (ts : List τ) :
    ∃ read, ts = read ++ (A.parse s ts).rest ∧ P (A.parse s ts).state := by
  exact @parse_history σ τ ρ A (fun _ _ s => P s) (fun h => hshift h) (fun h => hdefault h) [] [] s hs ts

theorem length_rest_le (s : σ) (ts : List τ) : (A.parse s ts).rest.length ≤ ts.length := by
  obtain ⟨read, hread, -⟩ :=
    A.parse_invariant (fun _ => True) (fun _ _ => trivial) (fun _ _ => trivial) (s := s) trivial ts
  have hlen := congrArg List.length hread
  rw [List.length_append] at hlen
  omega

/-- A run that reads nothing cannot shift its first terminal. -/
theorem shift_of_rest {s : σ} {t : τ} {ts : List τ} (h : (A.parse s (t :: ts)).rest = t :: ts) :
    A.shift (A.settle (A.rank s) s (some t)).2 t = none := by
  cases hshift : A.shift (A.settle (A.rank s) s (some t)).2 t with
  | none => rfl
  | some p =>
      rw [parse, hshift] at h
      have hle := A.length_rest_le p.2 ts
      have hlen := congrArg List.length h
      rw [List.length_cons] at hlen
      simp only [Outcome.after] at hlen
      omega

/-- A run that cannot shift its first terminal. -/
theorem parse_of_stuck {s : σ} {t : τ} (h : A.shift (A.settle (A.rank s) s (some t)).2 t = none)
    (ts : List τ) : A.parse s (t :: ts) = ⟨(A.parse s []).reductions, (A.parse s []).state, t :: ts⟩ := by
  have hstuck : A.canShift (A.settle (A.rank s) s (some t)).2 (some t) = false := by
    rw [canShift, Option.bind_some, h]
    rfl
  have hparse : A.parse s (t :: ts) = ⟨(A.settle (A.rank s) s (some t)).1,
      (A.settle (A.rank s) s (some t)).2, t :: ts⟩ := by
    rw [parse, h]
  rw [hparse, settle_of_stuck hstuck]
  rfl

/-- **A run does not depend on what is behind the terminal where it stops**, and it is a run over what it
has read. -/
theorem parse_cut {s : σ} {us vs vs' : List τ} (h : (A.parse s (us ++ vs)).rest = vs)
    (hhead : vs' = [] ∨ vs'.head? = vs.head?) :
    A.parse s (us ++ vs') =
      ⟨(A.parse s (us ++ vs)).reductions, (A.parse s (us ++ vs)).state, vs'⟩ := by
  induction us generalizing s with
  | nil =>
      rw [List.nil_append] at h
      rw [List.nil_append, List.nil_append]
      cases vs with
      | nil =>
          obtain rfl : vs' = [] := by
            rcases hhead with rfl | hnone
            · rfl
            · exact List.head?_eq_none_iff.mp hnone
          rfl
      | cons t ts =>
          have hstuck := A.shift_of_rest h
          rw [parse_of_stuck hstuck]
          cases vs' with
          | nil => rfl
          | cons t' ts' =>
              obtain rfl : t' = t := by simpa using hhead
              rw [parse_of_stuck hstuck]
  | cons u us ih =>
      rw [List.cons_append, parse] at h
      rw [List.cons_append, List.cons_append, parse, parse]
      cases hshift : A.shift (A.settle (A.rank s) s (some u)).2 u with
      | none =>
          rw [hshift] at h
          have hlen := congrArg List.length h
          simp only [List.length_cons, List.length_append] at hlen
          omega
      | some p =>
          rw [hshift] at h
          simp only [Outcome.after] at h
          simp only [ih h, Outcome.after]

end Automaton

end Lr
