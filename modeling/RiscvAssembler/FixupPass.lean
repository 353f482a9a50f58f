import RiscvAssembler.Effects

/-!
# The fixup pass as a fold over words

The pass reads `label_to_addr` through `operator[]`, so it may enter defaults there on the way. They
change no later lookup (`target_resolveInstruction`), so that the whole pass is a fold of `patch`
over the words of `.text`, with a target for every hash that is fixed in advance
(`text_resolveUnresolvedInstructions`).

* `patch_getElem?_ne`, `length_patch`: a round changes at most the word at its slot.
* `foldl_patch_getElem?_of_ne`: a word that is nobody's slot comes out as it went in.
-/

namespace RiscvAssembler

namespace ELF32

/-- The index that the pass finds for a hash, zero if there is none. -/
def target (e : ELF32) (hash : Word) : Word := (e.labelToAddr.lookup hash).getD 0

theorem labelToAddrAt_snd (e : ELF32) (hash : Word) : (e.labelToAddrAt hash).2 = e.target hash := by
  unfold labelToAddrAt target
  split <;> rename_i h <;> simp [h]

/-- Entering a default changes no lookup. -/
theorem target_labelToAddrAt (e : ELF32) (hash h : Word) :
    (e.labelToAddrAt hash).1.target h = e.target h := by
  unfold labelToAddrAt target
  split
  · rfl
  · rename_i hnone
    by_cases hh : h = hash
    · subst hh
      simp [hnone]
    · simp [AList.lookup_insert_ne hh]

theorem secText_labelToAddrAt (e : ELF32) (hash : Word) :
    (e.labelToAddrAt hash).1.secText = e.secText := by
  unfold labelToAddrAt
  split <;> rfl

end ELF32

/-- One round of the pass, on the words of `.text`. -/
def patch (target : Word → Word) (text : List Word) (entry : UnresolvedInst32) : List Word :=
  match ELF32.patchedInsn entry.insnType (text[entry.insnNumber.toNat]?.getD 0) (target entry.hash)
    entry.pcInsnNumber with
  | some insn => text.set entry.insnNumber.toNat insn
  | none => text

namespace ELF32

variable (e : ELF32) (entry : UnresolvedInst32)

theorem text_resolveInstruction :
    (e.resolveInstruction entry).secText.data = patch e.target e.secText.data entry := by
  unfold resolveInstruction patch Text.getEntry
  rw [← labelToAddrAt_snd]
  simp only []
  cases hp : patchedInsn entry.insnType ((e.secText.data[entry.insnNumber.toNat]?).getD 0)
      (e.labelToAddrAt entry.hash).2 entry.pcInsnNumber with
  | some insn => simp only [Text.data_updateEntry, secText_labelToAddrAt]
  | none => rfl

theorem target_resolveInstruction (h : Word) :
    (e.resolveInstruction entry).target h = e.target h := by
  unfold resolveInstruction
  simp only []
  split
  · exact target_labelToAddrAt e entry.hash h
  · rfl

/-- A number of rounds: the words are patched one entry at a time, and the targets stay. -/
theorem foldl_resolveInstruction (entries : List UnresolvedInst32) :
    (entries.foldl resolveInstruction e).secText.data =
        entries.foldl (patch e.target) e.secText.data ∧
      (entries.foldl resolveInstruction e).target = e.target := by
  induction entries generalizing e with
  | nil => exact ⟨rfl, rfl⟩
  | cons entry entries ih =>
      have htarget : (e.resolveInstruction entry).target = e.target :=
        funext (e.target_resolveInstruction entry)
      obtain ⟨htext, htgt⟩ := ih (e.resolveInstruction entry)
      rw [htarget, text_resolveInstruction] at htext
      exact ⟨htext, htgt.trans htarget⟩

/-- **The pass**, on the words of `.text`. -/
theorem text_resolveUnresolvedInstructions :
    e.resolveUnresolvedInstructions.secText.data =
      e.unresolvedInstructions.foldl (patch e.target) e.secText.data :=
  (e.foldl_resolveInstruction e.unresolvedInstructions).1

end ELF32

namespace ELF32

/-- A part of the object that depends on neither the words nor the addresses of hashes comes out of the
pass as it went in. -/
theorem project_resolveUnresolvedInstructions {α : Type} (f : ELF32 → α)
    (hf : ∀ e secText labelToAddr, f { e with secText, labelToAddr } = f e) (e : ELF32) :
    f e.resolveUnresolvedInstructions = f e := by
  have hround : ∀ (e : ELF32) entry, f (e.resolveInstruction entry) = f e := by
    intro e entry
    have hlookup : ∃ labelToAddr, (e.labelToAddrAt entry.hash).1 = { e with labelToAddr } := by
      unfold labelToAddrAt
      split
      · exact ⟨e.labelToAddr, rfl⟩
      · exact ⟨_, rfl⟩
    obtain ⟨labelToAddr, hlookup⟩ := hlookup
    unfold resolveInstruction
    simp only []
    rw [hlookup]
    split
    · exact hf e _ labelToAddr
    · rfl
  unfold resolveUnresolvedInstructions
  generalize e.unresolvedInstructions = entries
  induction entries generalizing e with
  | nil => rfl
  | cons entry entries ih => rw [List.foldl_cons, ih, hround]

end ELF32

/-! ## Patched words -/

/-- The value that the pass puts in is twice the distance in instructions, modulo `2 ^ 32`. -/
theorem toNat_resolvedEffectiveOffset (resolved pc : Word) :
    (ELF32.resolvedEffectiveOffset resolved pc).toNat = 2 * (resolved - pc).toNat % 2 ^ 32 := by
  have hx := (resolved - pc).isLt
  have h4 : instructionWidth.toNat = 4 := rfl
  have h2 : (2 : BitVec 64).toNat = 2 := rfl
  simp only [ELF32.resolvedEffectiveOffset, BitVec.toNat_setWidth, BitVec.toNat_udiv,
    BitVec.toNat_mul, h4, h2]
  omega

/-- Half of the value that the pass puts in is the distance in instructions, modulo `2 ^ 31`. -/
theorem dvd_resolvedEffectiveOffset (resolved pc : Word) :
    (2 ^ 31 : ℤ) ∣ (ELF32.resolvedEffectiveOffset resolved pc).toNat / 2 -
      (resolved.toNat - pc.toNat) := by
  have hr := resolved.isLt
  have hp := pc.isLt
  rw [toNat_resolvedEffectiveOffset, BitVec.toNat_sub]
  omega

/-- Two values show as one B-type displacement iff they agree in the bits that it keeps. -/
theorem bImmediate_eq_iff (x y : Word) :
    bImmediate x = bImmediate y ↔ (2 ^ 12 : ℤ) ∣ x.toNat / 2 - y.toNat / 2 := by
  rw [← BitVec.toNat_inj, toNat_bImmediate, toNat_bImmediate]
  omega

section PatchedWord

variable {w w' resolved pc : Word}

/-- A branch fixup replaces the displacement and swaps the two registers. -/
theorem fields_of_patched_bType (h : ELF32.patchedInsn .bType w resolved pc = some w') :
    Rv32i.opcode w' = Rv32i.opcode w ∧ Rv32i.funct3 w' = Rv32i.funct3 w ∧
      Rv32i.rs1 w' = Rv32i.rs2 w ∧ Rv32i.rs2 w' = Rv32i.rs1 w ∧
      Rv32i.immB w' = bImmediate (ELF32.resolvedEffectiveOffset resolved pc) := by
  cases h
  obtain ⟨ho, hf, h1, h2, -⟩ := Btype32.fields_deserialize w
  simp [ho, hf, h1, h2]

/-- A jump fixup replaces the displacement. -/
theorem fields_of_patched_jType (h : ELF32.patchedInsn .jType w resolved pc = some w') :
    Rv32i.opcode w' = Rv32i.opcode w ∧ Rv32i.rd w' = Rv32i.rd w ∧
      Rv32i.immJ w' = jImmediate (ELF32.resolvedEffectiveOffset resolved pc) := by
  cases h
  obtain ⟨ho, hd, -⟩ := Jtype32.fields_deserialize w
  simp [ho, hd]

/-- The word already shows what a fixup of the given type would put in: the displacement and, for a
branch, two equal registers. -/
def Shows (insnType : InstType) (w offset : Word) : Prop :=
  match insnType with
  | .bType => Rv32i.rs1 w = Rv32i.rs2 w ∧ Rv32i.immB w = bImmediate offset
  | .jType => Rv32i.immJ w = jImmediate offset
  | _ => True

/-- A branch or jump fixup leaves exactly those words alone that already show what it puts in. -/
theorem patchedInsn_eq_self_iff {insnType : InstType} (ht : insnType = .bType ∨ insnType = .jType) :
    ELF32.patchedInsn insnType w resolved pc = some w ↔
      Shows insnType w (ELF32.resolvedEffectiveOffset resolved pc) := by
  rcases ht with rfl | rfl
  · obtain ⟨w', hw'⟩ : ∃ w', ELF32.patchedInsn .bType w resolved pc = some w' := ⟨_, rfl⟩
    obtain ⟨ho, hf, h1, h2, hi⟩ := fields_of_patched_bType hw'
    rw [hw', Option.some.injEq]
    constructor
    · rintro rfl
      exact ⟨h1, hi⟩
    · rintro ⟨heq, himm⟩
      exact Rv32i.ext_bType ho hf (h1.trans heq.symm) (h2.trans heq) (hi.trans himm.symm)
  · obtain ⟨w', hw'⟩ : ∃ w', ELF32.patchedInsn .jType w resolved pc = some w' := ⟨_, rfl⟩
    obtain ⟨ho, hd, hi⟩ := fields_of_patched_jType hw'
    rw [hw', Option.some.injEq]
    constructor
    · rintro rfl
      exact hi
    · exact fun himm => Rv32i.ext_jType ho hd (hi.trans (Eq.symm himm))

end PatchedWord

/-! ## Frame -/

variable (target : Word → Word)

@[simp] theorem length_patch (text : List Word) (entry : UnresolvedInst32) :
    (patch target text entry).length = text.length := by
  unfold patch
  split <;> simp

/-- A round leaves every word but the one at its slot. -/
theorem patch_getElem?_ne (text : List Word) (entry : UnresolvedInst32) {k : ℕ}
    (h : entry.insnNumber.toNat ≠ k) : (patch target text entry)[k]? = text[k]? := by
  unfold patch
  split
  · exact List.getElem?_set_ne h
  · rfl

@[simp] theorem length_foldl_patch (entries : List UnresolvedInst32) (text : List Word) :
    (entries.foldl (patch target) text).length = text.length := by
  induction entries generalizing text with
  | nil => rfl
  | cons entry entries ih => rw [List.foldl_cons, ih, length_patch]

/-- A word at which no entry aims comes out as it went in. -/
theorem foldl_patch_getElem?_of_ne {entries : List UnresolvedInst32} {k : ℕ}
    (h : ∀ entry ∈ entries, entry.insnNumber.toNat ≠ k) (text : List Word) :
    (entries.foldl (patch target) text)[k]? = text[k]? := by
  induction entries generalizing text with
  | nil => rfl
  | cons entry entries ih =>
      rw [List.foldl_cons, ih (fun e he => h e (List.mem_cons_of_mem _ he)),
        patch_getElem?_ne target text entry (h entry List.mem_cons_self)]

/-! ## One word -/

/-- What an entry makes of the word at index `k`. -/
def rewriteAt (k : ℕ) (w : Word) (entry : UnresolvedInst32) : Word :=
  if entry.insnNumber.toNat = k then
    (ELF32.patchedInsn entry.insnType w (target entry.hash) entry.pcInsnNumber).getD w
  else w

/-- What the entries of the pass make of the word at index `k`, one after the other. -/
def rewritten (entries : List UnresolvedInst32) (k : ℕ) (w : Word) : Word :=
  entries.foldl (rewriteAt target k) w

/-- A round, at one word. -/
theorem patch_getElem? (text : List Word) (entry : UnresolvedInst32) (k : ℕ) :
    (patch target text entry)[k]? = text[k]?.map fun w => rewriteAt target k w entry := by
  by_cases hk : entry.insnNumber.toNat = k
  · subst hk
    simp only [rewriteAt, if_true]
    unfold patch
    cases hw : text[entry.insnNumber.toNat]? with
    | none =>
        have hout := List.getElem?_eq_none_iff.mp hw
        split
        · rw [List.set_eq_of_length_le hout, hw]
          rfl
        · rw [hw]
          rfl
    | some w =>
        have hin : entry.insnNumber.toNat < text.length := (List.getElem?_eq_some_iff.mp hw).1
        rw [Option.getD_some]
        split
        · rename_i hinsn
          rw [List.getElem?_set_self hin, Option.map_some, hinsn, Option.getD_some]
        · rename_i hinsn
          rw [hw, Option.map_some, hinsn, Option.getD_none]
  · rw [patch_getElem?_ne target text entry hk]
    simp only [rewriteAt, if_neg hk, Option.map_id']

theorem rewritten_nil (k : ℕ) (w : Word) : rewritten target [] k w = w := List.foldl_nil

theorem rewritten_cons (entry : UnresolvedInst32) (entries : List UnresolvedInst32) (k : ℕ)
    (w : Word) :
    rewritten target (entry :: entries) k w = rewritten target entries k (rewriteAt target k w entry) :=
  List.foldl_cons ..

/-- **The pass, at one word.** -/
theorem foldl_patch_getElem? (entries : List UnresolvedInst32) (text : List Word) (k : ℕ) :
    (entries.foldl (patch target) text)[k]? = text[k]?.map fun w => rewritten target entries k w := by
  induction entries generalizing text with
  | nil => exact (Option.map_id' (x := text[k]?)).symm
  | cons entry entries ih =>
      rw [List.foldl_cons, ih, patch_getElem?, Option.map_map]
      simp only [Function.comp_def, rewritten_cons]

/-- Two lists of entries make the same of a word if, entry by entry, they do the same to it. -/
theorem rewritten_congr {target' : Word → Word} {k : ℕ} {entries entries' : List UnresolvedInst32}
    {R : UnresolvedInst32 → UnresolvedInst32 → Prop} (h : List.Forall₂ R entries entries')
    (hR : ∀ a b, R a b → ∀ w, rewriteAt target k w a = rewriteAt target' k w b) (w : Word) :
    rewritten target entries k w = rewritten target' entries' k w := by
  induction h generalizing w with
  | nil => rw [rewritten_nil, rewritten_nil]
  | cons hab _ ih => rw [rewritten_cons, rewritten_cons, hR _ _ hab, ih]

/-- An entry that aims elsewhere does nothing to a word. -/
theorem rewriteAt_of_ne {k : ℕ} {entry : UnresolvedInst32} (h : entry.insnNumber.toNat ≠ k)
    (w : Word) : rewriteAt target k w entry = w := if_neg h

/-- The pass neither adds nor drops a word. -/
theorem ELF32.length_resolveUnresolvedInstructions (e : ELF32) :
    e.resolveUnresolvedInstructions.secText.data.length = e.secText.data.length := by
  rw [e.text_resolveUnresolvedInstructions, length_foldl_patch]

end RiscvAssembler
