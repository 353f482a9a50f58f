import Mathlib.Data.List.Basic

/-!
# Shift-reduce parsers with default reductions

An automaton shifts the lookahead where it can. Where it cannot, it makes the default reduction of its
state whatever the lookahead is, so that reductions can happen in front of an error.

* `Item` is a production of which a part is on the stack, `Item.Yields` what is left of it.
* `Automaton.parse` runs an automaton; `parse_of_shift` and `parse_of_default` are its steps.
* `Automaton.parse_history`: what every step preserves holds where the automaton stops.

Nothing here names a particular grammar.
-/

namespace Lr

variable {σ τ ρ α β : Type}

/-! ## Items -/

/-- A production of which a part is on the stack: complete, or with the item behind each terminal that
can follow and the value that it is reduced to by default, if there is one. -/
inductive Item (τ α : Type)
  | reduce (value : α)
  | shift (default : Option α) (next : τ → Option (Item τ α))

/-- The terminals that carry a value of one kind. -/
structure Terminal (τ β : Type) where
  put : β → τ
  get : τ → Option β
  get_eq_some : ∀ {t b}, get t = some b ↔ t = put b

/-- A terminal without a value. -/
def keyword [DecidableEq τ] (t : τ) : Terminal τ Unit where
  put := fun _ => t
  get := fun u => if u = t then some () else none
  get_eq_some := by simp

/-- Terminals that stand for the values of a finite type. -/
def oneOf [DecidableEq τ] (put : β → τ) (all : List β) (hall : ∀ b, b ∈ all)
    (hput : ∀ b b', put b = put b' → b = b') : Terminal τ β where
  put := put
  get := fun t => all.find? fun b => put b = t
  get_eq_some := by
    intro t b
    constructor
    · intro h
      have ht : put b = t := by simpa using List.find?_some h
      exact ht.symm
    · intro h
      have hsome : (all.find? fun b => put b = t).isSome = true := by
        rw [List.find?_isSome]
        exact ⟨b, hall b, by simp [h]⟩
      obtain ⟨b', hb'⟩ := Option.isSome_iff_exists.mp hsome
      have ht : put b' = t := by simpa using List.find?_some hb'
      rw [hb', hput b' b (ht.trans h)]

namespace Item

/-- The item behind a terminal. -/
def next : Item τ α → τ → Option (Item τ α)
  | reduce _, _ => none
  | shift _ next, t => next t

/-- The value that the item is reduced to without a look at what follows. -/
def default : Item τ α → Option α
  | reduce a => some a
  | shift d _ => d

/-- The terminals complete the item to a value. -/
def Yields : Item τ α → List τ → α → Prop
  | item, [], a => item.default = some a
  | item, t :: ts, a => ∃ item', item.next t = some item' ∧ item'.Yields ts a

/-- A terminal of a kind has to follow, unless there is a default. -/
def expect (d : Option α) (T : Terminal τ β) (k : β → Item τ α) : Item τ α :=
  shift d fun t => (T.get t).map k

/-- One of two items that start with different terminals. -/
def or : Item τ α → Item τ α → Item τ α
  | item, item' =>
    shift (item.default.or item'.default) fun t => (item.next t).or (item'.next t)

theorem yields_reduce {x a : α} {ts : List τ} : (reduce x).Yields ts a ↔ ts = [] ∧ x = a := by
  cases ts with
  | nil => simp [Yields, default]
  | cons t ts => simp [Yields, next]

theorem yields_expect {d : Option α} {T : Terminal τ β} {k : β → Item τ α} {ts : List τ} {a : α} :
    (expect d T k).Yields ts a ↔
      ts = [] ∧ d = some a ∨ ∃ b us, ts = T.put b :: us ∧ (k b).Yields us a := by
  cases ts with
  | nil => simp [Yields, expect, default]
  | cons t ts =>
      simp only [Yields, expect, next, Option.map_eq_some_iff, T.get_eq_some, List.cons.injEq]
      constructor
      · rintro ⟨_, ⟨b, ht, rfl⟩, h⟩
        exact Or.inr ⟨b, ts, ⟨ht, rfl⟩, h⟩
      · rintro (⟨hnil, -⟩ | ⟨b, _, ⟨ht, rfl⟩, h⟩)
        · cases hnil
        · exact ⟨k b, ⟨b, ht, rfl⟩, h⟩

theorem yields_or {item item' : Item τ α} {ts : List τ} {a : α} (h : (item.or item').Yields ts a) :
    item.Yields ts a ∨ item'.Yields ts a := by
  cases ts with
  | nil => exact (Option.or_eq_some_iff.mp h).imp_right And.right
  | cons t ts =>
      obtain ⟨next, hnext, h⟩ := h
      rcases Option.or_eq_some_iff.mp hnext with hfirst | ⟨-, hsecond⟩
      · exact Or.inl ⟨next, hfirst, h⟩
      · exact Or.inr ⟨next, hsecond, h⟩

end Item

/-! ## Automata -/

/-- An automaton on states that know the stack: what shifting a terminal leads to, with the reductions
that no lookahead is needed for, and the default reductions, of which there are finitely many in a row.
-/
structure Automaton (σ τ ρ : Type) where
  shift : σ → τ → Option (List ρ × σ)
  default : σ → Option (ρ × σ)
  rank : σ → ℕ
  rank_default : ∀ {s r s'}, default s = some (r, s') → rank s' < rank s

/-- Where a run stops: the reductions made, the state, and the input that is left. -/
structure Outcome (σ τ ρ : Type) where
  reductions : List ρ
  state : σ
  rest : List τ

/-- The outcome of a run that goes on after the given reductions. -/
def Outcome.after (rs : List ρ) (o : Outcome σ τ ρ) : Outcome σ τ ρ :=
  { o with reductions := rs ++ o.reductions }

namespace Automaton

variable (A : Automaton σ τ ρ)

/-- The lookahead can be shifted; `none` stands for the end of the input. -/
def canShift (s : σ) (t : Option τ) : Bool := (t.bind (A.shift s)).isSome

/-- Up to `n` default reductions, until the lookahead can be shifted. -/
def settle : ℕ → σ → Option τ → List ρ × σ
  | 0, s, _ => ([], s)
  | n + 1, s, t =>
    if A.canShift s t then ([], s)
    else
      match A.default s with
      | none => ([], s)
      | some (r, s') => (r :: (settle n s' t).1, (settle n s' t).2)

/-- Run the automaton. -/
def parse : σ → List τ → Outcome σ τ ρ
  | s, [] => ⟨(A.settle (A.rank s) s none).1, (A.settle (A.rank s) s none).2, []⟩
  | s, t :: ts =>
    match A.shift (A.settle (A.rank s) s (some t)).2 t with
    | none =>
      ⟨(A.settle (A.rank s) s (some t)).1, (A.settle (A.rank s) s (some t)).2, t :: ts⟩
    | some (rs, s') => (parse s' ts).after ((A.settle (A.rank s) s (some t)).1 ++ rs)

variable {A}

theorem canShift_of_shift {s s' : σ} {t : τ} {rs : List ρ} (h : A.shift s t = some (rs, s')) :
    A.canShift s (some t) = true := by
  rw [canShift, Option.bind_some, h]
  rfl

theorem settle_of_canShift {n : ℕ} {s : σ} {t : Option τ} (h : A.canShift s t = true) :
    A.settle n s t = ([], s) := by
  cases n with
  | zero => rfl
  | succ n => rw [settle, if_pos h]

theorem settle_of_stop {n : ℕ} {s : σ} {t : Option τ} (h : A.default s = none) :
    A.settle n s t = ([], s) := by
  cases n with
  | zero => rfl
  | succ n => simp only [settle, h, ite_self]

theorem default_of_rank_zero {s : σ} (h : A.rank s = 0) : A.default s = none := by
  cases hd : A.default s with
  | none => rfl
  | some p => exact absurd (A.rank_default hd) (by omega)

/-- As many default reductions as the state allows are enough. -/
theorem settle_eq_of_rank_le {n m : ℕ} {s : σ} {t : Option τ} (hn : A.rank s ≤ n)
    (hm : A.rank s ≤ m) : A.settle n s t = A.settle m s t := by
  induction n generalizing s m with
  | zero => rw [settle_of_stop (default_of_rank_zero (Nat.le_zero.mp hn)),
      settle_of_stop (default_of_rank_zero (Nat.le_zero.mp hn))]
  | succ n ih =>
      cases m with
      | zero => rw [settle_of_stop (default_of_rank_zero (Nat.le_zero.mp hm)),
          settle_of_stop (default_of_rank_zero (Nat.le_zero.mp hm))]
      | succ m =>
          cases hd : A.default s with
          | none => rw [settle_of_stop hd, settle_of_stop hd]
          | some p =>
              have hlt := A.rank_default hd
              have hrest : A.settle n p.2 t = A.settle m p.2 t := ih (by omega) (by omega)
              simp only [settle, hd, hrest]

theorem settle_of_default {s s' : σ} {r : ρ} {t : Option τ} (ht : A.canShift s t = false)
    (h : A.default s = some (r, s')) :
    A.settle (A.rank s) s t =
      (r :: (A.settle (A.rank s') s' t).1, (A.settle (A.rank s') s' t).2) := by
  have hlt := A.rank_default h
  obtain ⟨n, hn⟩ := Nat.exists_eq_succ_of_ne_zero (Nat.ne_of_gt (Nat.zero_lt_of_lt hlt))
  rw [hn, settle, if_neg (by simp [ht]), h]
  simp only
  rw [settle_eq_of_rank_le (Nat.le_of_lt_succ (hn ▸ hlt)) (Nat.le_refl _)]

/-! ### Steps of a run -/

@[simp] theorem after_after (rs rs' : List ρ) (o : Outcome σ τ ρ) :
    (o.after rs').after rs = o.after (rs ++ rs') := by
  simp only [Outcome.after, List.append_assoc]

/-- **A shift.** -/
theorem parse_of_shift {s s' : σ} {t : τ} {rs : List ρ} (h : A.shift s t = some (rs, s'))
    (ts : List τ) : A.parse s (t :: ts) = (A.parse s' ts).after rs := by
  rw [parse, settle_of_canShift (canShift_of_shift h)]
  simp only [h, List.nil_append]

/-- **A default reduction.** -/
theorem parse_of_default {s s' : σ} {r : ρ} {ts : List τ} (ht : A.canShift s ts.head? = false)
    (h : A.default s = some (r, s')) : A.parse s ts = (A.parse s' ts).after [r] := by
  cases ts with
  | nil =>
      have hend : A.canShift s none = false := ht
      rw [parse, parse, settle_of_default hend h]
      rfl
  | cons t ts =>
      have ht' : A.canShift s (some t) = false := ht
      rw [parse, parse, settle_of_default ht' h]
      cases A.shift (A.settle (A.rank s') s' (some t)).2 t with
      | none => rfl
      | some p => simp

/-- **Histories.** What links the input read and the reductions made to the state, if every shift and
every default reduction keep it, holds where the automaton stops. -/
theorem parse_history (I : List τ → List ρ → σ → Prop)
    (hshift : ∀ {us rs s t rs' s'}, I us rs s → A.shift s t = some (rs', s') →
      I (us ++ [t]) (rs ++ rs') s')
    (hdefault : ∀ {us rs s r s'}, I us rs s → A.default s = some (r, s') → I us (rs ++ [r]) s')
    {us : List τ} {rs : List ρ} {s : σ} (hs : I us rs s) (ts : List τ) :
    ∃ read, ts = read ++ (A.parse s ts).rest ∧
      I (us ++ read) (rs ++ (A.parse s ts).reductions) (A.parse s ts).state := by
  have hsettle : ∀ n us rs s t, I us rs s →
      I us (rs ++ (A.settle n s t).1) (A.settle n s t).2 := by
    intro n
    induction n with
    | zero => intro us rs s t h; rw [settle, List.append_nil]; exact h
    | succ n ih =>
        intro us rs s t h
        by_cases ht : A.canShift s t = true
        · rw [settle_of_canShift ht, List.append_nil]
          exact h
        · cases hd : A.default s with
          | none =>
              rw [settle_of_stop hd, List.append_nil]
              exact h
          | some p =>
              have hnext := ih us (rs ++ [p.1]) p.2 t (hdefault h hd)
              rw [List.append_assoc, List.singleton_append] at hnext
              simpa only [settle, if_neg ht, hd] using hnext
  induction ts generalizing us rs s with
  | nil => exact ⟨[], rfl, by rw [List.append_nil]; exact hsettle _ us rs s none hs⟩
  | cons t ts ih =>
      have hreduced := hsettle (A.rank s) us rs s (some t) hs
      rw [parse]
      cases hnext : A.shift (A.settle (A.rank s) s (some t)).2 t with
      | none => exact ⟨[], rfl, by rw [List.append_nil]; exact hreduced⟩
      | some p =>
          obtain ⟨read, hread, hI⟩ := ih (hshift hreduced hnext)
          refine ⟨t :: read, by rw [List.cons_append]; exact congrArg (t :: ·) hread, ?_⟩
          simpa [Outcome.after] using hI

end Automaton

end Lr
