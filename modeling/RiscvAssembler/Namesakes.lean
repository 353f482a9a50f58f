import RiscvAssembler.Lib.Fnv
import RiscvAssembler.Renaming

/-!
# Names with one hash

A branch to a label that has no address yet is sent where the last label with the same hash is. Which names
have one hash cannot be told from their looks, but:

* `Program.assemble_suffix`: one suffix for all names of a program neither makes such names nor parts
  them, and leaves the object as it is, up to the names.
* `target_of_one_character`: labels that differ from it in one character do not take a branch away.
-/

namespace RiscvAssembler

open Runs

theorem hasher_eq (s : Str) : hasher s = Fnv.hash 16777619 2166136261 s := rfl

/-- The names differ in one character. -/
def DifferInOne (l m : Str) : Prop := ∃ pre c d post, c ≠ d ∧ l = pre ++ c :: post ∧ m = pre ++ d :: post

theorem DifferInOne.hasher_ne {l m : Str} (h : DifferInOne l m) : hasher l ≠ hasher m := by
  obtain ⟨pre, c, d, post, hne, rfl, rfl⟩ := h
  rw [hasher_eq, hasher_eq, Ne, Fnv.hash_eq_iff_of_one_byte (by decide) (by decide)]
  exact hne

/-- **Names like `loop1` and `loop2` are safe**: if the labels that a program records differ from one of them
in one character each, a reference to that one goes to its own address. -/
theorem target_of_one_character (p : Program) (pre : List Reduction) (i : Instruction) (insnType : InstType)
    (label : Str) (s u : ParserState) (h : p.Pending pre i insnType label s u) (addr : Word)
    (haddr : u.elf.resolvedLabels.lookup label = some addr)
    (hnames : ∀ m ∈ labelsOf p.reductions, m ≠ label → DifferInOne label m) :
    ((u.passUpTo s.elf.unresolvedInstructions).labelToAddrAt (s.pendingEntry insnType label).hash).2 = addr := by
  obtain ⟨m, addr', hm, haddr', htarget⟩ := h.target_eq (u.elf.labelExists_iff.mpr ⟨addr, haddr⟩)
  have hmem := List.mem_filter.mp (List.mem_of_getLast? hm)
  have hhash : hasher m = hasher label := of_decide_eq_true hmem.2
  obtain rfl : m = label := by
    by_contra hne
    exact (hnames m hmem.1 hne).hasher_ne hhash.symm
  rw [htarget]
  exact Option.some.inj (haddr'.symm.trans haddr)

/-- The names `a` and `b`. -/
theorem forward_target_of_one_character : ∃ s u : ParserState, forward.parse = .ok u ∧
    ((u.passUpTo s.elf.unresolvedInstructions).labelToAddrAt
      (s.pendingEntry .bType (str "b")).hash).2 = 1 := by
  refine ⟨ParserState.start.directiveAction .sectionText, _, rfl, target_of_one_character forward
    [.directive .sectionText] (.branch .beq 5 6 (sym "b")) .bType (str "b") _ _
    ⟨⟨_, rfl⟩, rfl, rfl, by decide, rfl⟩ 1 rfl ?_⟩
  intro m hm hne
  have hlabels : labelsOf forward.reductions = [str "a", str "b"] := by decide
  rw [hlabels, List.mem_cons, List.mem_singleton] at hm
  obtain rfl := hm.resolve_right hne
  exact ⟨[], 0x62, 0x61, [], by decide, rfl, rfl⟩

end RiscvAssembler
