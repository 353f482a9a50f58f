import Mathlib.Data.List.Induction

/-!
# Folds whose steps keep or set what is observed

A value is changed step by step, and something of it is observed. A step may keep the observation
(`Keeps`), set it to a value of the step's own (`Sets`), or change it in a way that depends on nothing
but the observation (`Respects`).

* `foldl_keeps_or_sets`: steps that each keep or set do the one or the other together.
* `foldl_sets`: steps that respect the observation set it as soon as one of them does.
* `observe_foldl_foldl`: so that a second round of the same steps shows nothing new.

Nothing here names a particular value or step.
-/

namespace Overwrites

variable {α β γ : Type*} (f : α → β → α) (o : α → γ)

/-- The step keeps the observation. -/
def Keeps (b : β) : Prop := ∀ a, o (f a b) = o a

/-- The observation after the step does not depend on the value. -/
def Sets (b : β) : Prop := ∀ a a', o (f a b) = o (f a' b)

/-- The observation after the step depends on nothing but the one in front of it. -/
def Respects (b : β) : Prop := ∀ a a', o a = o a' → o (f a b) = o (f a' b)

variable {f o}

theorem Keeps.respects {b : β} (h : Keeps f o b) : Respects f o b := by
  intro a a' ha
  rw [h a, h a', ha]

theorem Sets.respects {b : β} (h : Sets f o b) : Respects f o b := fun a a' _ => h a a'

/-- Steps that keep the observation. -/
theorem foldl_keeps {bs : List β} (h : ∀ b ∈ bs, Keeps f o b) (a : α) : o (bs.foldl f a) = o a := by
  induction bs generalizing a with
  | nil => rfl
  | cons b bs ih =>
      rw [List.foldl_cons, ih fun b' hb' => h b' (List.mem_cons_of_mem _ hb')]
      exact h b List.mem_cons_self a

/-- Steps that each keep or set the observation keep or set it together. -/
theorem foldl_keeps_or_sets {bs : List β} (h : ∀ b ∈ bs, Keeps f o b ∨ Sets f o b) :
    (∀ a, o (bs.foldl f a) = o a) ∨ ∀ a a', o (bs.foldl f a) = o (bs.foldl f a') := by
  induction bs using List.reverseRecOn with
  | nil => exact Or.inl fun _ => rfl
  | append_singleton bs b ih =>
      simp only [List.foldl_append, List.foldl_cons, List.foldl_nil]
      rcases h b (by simp) with hb | hb
      · rcases ih fun b' hb' => h b' (by simp [hb']) with hbs | hbs
        · exact Or.inl fun a => (hb _).trans (hbs a)
        · exact Or.inr fun a a' => by rw [hb, hb, hbs a a']
      · exact Or.inr fun a a' => hb _ _

/-- Steps that respect the observation set it as soon as one of them does. -/
theorem foldl_sets {bs : List β} (h : ∀ b ∈ bs, Respects f o b) {b : β} (hb : b ∈ bs)
    (hsets : Sets f o b) (a a' : α) : o (bs.foldl f a) = o (bs.foldl f a') := by
  induction bs using List.reverseRecOn with
  | nil => cases hb
  | append_singleton bs c ih =>
      simp only [List.foldl_append, List.foldl_cons, List.foldl_nil]
      rcases List.mem_append.mp hb with hmem | hmem
      · exact h c (by simp) _ _ (ih (fun b' hb' => h b' (by simp [hb'])) hmem)
      · obtain rfl := List.mem_singleton.mp hmem
        exact hsets _ _

/-- A second round of steps that each keep or set the observation shows what the first one showed. -/
theorem observe_foldl_foldl {bs : List β} (h : ∀ b ∈ bs, Keeps f o b ∨ Sets f o b) (a : α) :
    o (bs.foldl f (bs.foldl f a)) = o (bs.foldl f a) := by
  rcases foldl_keeps_or_sets h with hbs | hbs
  · exact hbs _
  · exact hbs _ _

end Overwrites
