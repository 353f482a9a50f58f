import RiscvAssembler.Fixups

/-!
# Control flow, end to end

`Program.ControlFlow` says that every branch and every jump of a program has its word, and that in
the final `.text` this word shows the byte displacement to the block of its label. The index `p` of
the instruction and the index `t` of the block are the lengths of `.text` when the parser comes to
them (`Program.Site`).

* `final_of_silent`, `final_of_pending`: the final word at a place, when all pending entries aim at
  their own words.
* `site_iff`: at one site, the word is right exactly when the value that reaches the encoder fits
  (`SiteFits`): a recorded index, halved, for a branch to a known label; the distance from
  the instruction before the branch for a pending one; a recorded index for a jump, which has no
  word at all if it is pending.
* `finalWords_iff`: the final words of one branch in two programs, in one of which its label is known.
* `controlFlow_iff`: which programs have all of these words right.
-/

namespace RiscvAssembler

open Runs ParserState BitFields

/-! ## Displacements -/

/-- The signed byte displacements of a format. -/
def DisplacementRange (insnType : InstType) (d : ℤ) : Prop :=
  match insnType with
  | .bType => -2 ^ 12 ≤ d ∧ d < 2 ^ 12
  | .jType => -2 ^ 20 ≤ d ∧ d < 2 ^ 20
  | _ => True

/-- The word is a `beq`, or a jump without a link, of the given byte displacement. -/
def DecodesTo (insnType : InstType) (w : Word) (d : ℤ) : Prop :=
  match insnType with
  | .bType => ∃ rs1 rs2 imm, Rv32i.decode w = some (.branch .beq rs1 rs2 imm) ∧ imm.toInt = d
  | .jType => ∃ imm, Rv32i.decode w = some (.jal 0 imm) ∧ imm.toInt = d
  | _ => False

/-- A B-type word shows `m` times four bytes iff half of what the encoder got is twice `m`, in the bits
that it keeps. -/
theorem toInt_bImmediate_eq_iff (offset : Word) {m : ℤ} (hm : DisplacementRange .bType (4 * m)) :
    (bImmediate offset).toInt = 4 * m ↔ (2 ^ 12 : ℤ) ∣ offset.toNat / 2 - 2 * m := by
  rw [toInt_eq_iff (by decide) hm.1 hm.2, toNat_bImmediate]
  push_cast
  omega

/-- A J-type word shows `m` times four bytes iff half of what the encoder got is twice `m`, in the bits
that it keeps. -/
theorem toInt_jImmediate_eq_iff (offset : Word) {m : ℤ} (hm : DisplacementRange .jType (4 * m)) :
    (jImmediate offset).toInt = 4 * m ↔ (2 ^ 20 : ℤ) ∣ offset.toNat / 2 - 2 * m := by
  rw [toInt_eq_iff (by decide) hm.1 hm.2, toNat_jImmediate]
  push_cast
  omega

/-- A `beq` word is right for a displacement of `m` times four bytes iff half of what the encoder got
is twice `m`, in the bits that it keeps. -/
theorem decodesTo_bType_iff {w offset : Word} {m : ℤ} (ho : Rv32i.opcode w = 0x63)
    (hf : Rv32i.funct3 w = 0) (hi : Rv32i.immB w = bImmediate offset)
    (hm : DisplacementRange .bType (4 * m)) :
    DecodesTo .bType w (4 * m) ↔ (2 ^ 12 : ℤ) ∣ offset.toNat / 2 - 2 * m := by
  rw [← toInt_bImmediate_eq_iff offset hm, ← hi]
  simp only [DecodesTo, Rv32i.decode_beq ho hf, Option.some.injEq, Rv32i.Instr.branch.injEq,
    true_and]
  constructor
  · rintro ⟨_, _, imm, ⟨-, -, rfl⟩, h⟩
    exact h
  · intro h
    exact ⟨_, _, _, ⟨rfl, rfl, rfl⟩, h⟩

/-- The word that a jump to a known label emits is right for a displacement of `m` times four bytes
iff the recorded index is twice `m`, in the bits that the encoder keeps. -/
theorem decodesTo_jType_iff (addr : Word) {m : ℤ} (hm : DisplacementRange .jType (4 * m)) :
    DecodesTo .jType (emitJTypeInstruction (addr <<< 1 &&& 0x1FFFFF) 0 jal32) (4 * m) ↔
      (2 ^ 20 : ℤ) ∣ addr.toNat - 2 * m := by
  have hoffset : (addr <<< 1 &&& 0x1FFFFF : Word).toNat = 2 * (addr.toNat % 2 ^ 20) := by
    have hmask : (0x1FFFFF : Word).toNat = 2 ^ 21 - 1 := rfl
    rw [BitVec.toNat_and, hmask, Nat.and_two_pow_sub_one_eq_mod, BitVec.toNat_shiftLeft,
      Nat.shiftLeft_eq]
    omega
  have hint : (jImmediate (addr <<< 1 &&& 0x1FFFFF)).toInt = 4 * m ↔
      (2 ^ 20 : ℤ) ∣ addr.toNat - 2 * m := by
    rw [toInt_jImmediate_eq_iff _ hm, hoffset]
    omega
  have ho : Rv32i.opcode (emitJTypeInstruction (addr <<< 1 &&& 0x1FFFFF) 0 jal32) = 0x6f := by
    rw [opcode_emitJType]
    rfl
  have hd : Rv32i.rd (emitJTypeInstruction (addr <<< 1 &&& 0x1FFFFF) 0 jal32) = 0 := by
    rw [rd_emitJType]
    rfl
  rw [← hint, DecodesTo, Rv32i.decode_jal ho, hd, immJ_emitJType]
  simp

/-! ## Final words -/

section

variable {p : Program} {u : ParserState}

/-- The word of an instruction that adds no entry is in the final `.text` as it was emitted. -/
theorem final_of_silent (h : p.PendingInText u) (hu : p.parse = .ok u) {pre post : List Reduction}
    {i : Instruction} {s t : ParserState} {w : Word}
    (hsplit : p.reductions = pre ++ .instruction i :: post) (hs : run step start pre = .ok s)
    (ht : step s (.instruction i) = .ok t) (hno : pended s i = []) (hw : emitted s i = [w]) :
    u.elf.resolveUnresolvedInstructions.secText.data[s.elf.secText.data.length]? = some w := by
  have htext := (step_instruction ht).text
  rw [hw] at htext
  have hrun : run step start p.reductions = .ok u := hu
  obtain ⟨ws, hws⟩ := run_text (run_after hs ht (hsplit ▸ hrun))
  rw [ELF32.text_resolveUnresolvedInstructions, foldl_patch_getElem?_of_ne _ fun entry he =>
    h.slot_ne hu hsplit hs ht hno le_rfl (by simp [htext]) he, ← hws, htext]
  simp

/-- The pass finds a pending branch's word as it was emitted, and leaves it alone after the branch's
own round: the entries before and after aim elsewhere. -/
theorem rounds_of_pending (h : p.PendingInText u) (hu : p.parse = .ok u) {pre : List Reduction}
    {i : Instruction} {label : Str} {s t : ParserState} (hp : p.Pending pre i .bType label s u)
    (ht : step s (.instruction i) = .ok t) :
    (u.passUpTo s.elf.unresolvedInstructions).secText.data[s.elf.secText.data.length]? =
        t.elf.secText.data[s.elf.secText.data.length]? ∧
      u.elf.resolveUnresolvedInstructions.secText.data[s.elf.secText.data.length]? =
        ((u.passUpTo s.elf.unresolvedInstructions).resolveInstruction
          (s.pendingEntry .bType label)).secText.data[s.elf.secText.data.length]? := by
  obtain ⟨w, htext, hslot⟩ := h.own hp ht
  obtain ⟨t', post, -, ht', hrest⟩ := hp.split
  obtain rfl := Except.ok.inj (ht.symm.trans ht')
  obtain ⟨ws, hws⟩ := run_text hrest
  obtain ⟨entries, hentries⟩ := hp.unresolved
  have hsorted := (h.sorted hu (List.append_nil _).symm hu).1
  rw [hentries, List.pairwise_append, List.pairwise_cons] at hsorted
  obtain ⟨-, ⟨hlater, -⟩, hearlier⟩ := hsorted
  have hbefore : ∀ entry ∈ s.elf.unresolvedInstructions,
      entry.insnNumber.toNat ≠ s.elf.secText.data.length := by
    intro entry he
    have hlt := hearlier entry he _ List.mem_cons_self
    omega
  have hafter : ∀ entry ∈ entries, entry.insnNumber.toNat ≠ s.elf.secText.data.length := by
    intro entry he
    have hlt := hlater entry he
    omega
  obtain ⟨hpass, htarget⟩ := u.elf.foldl_resolveInstruction s.elf.unresolvedInstructions
  constructor
  · rw [ParserState.passUpTo, hpass, foldl_patch_getElem?_of_ne _ hbefore, ← hws,
      List.getElem?_append_left (by simp [htext])]
  · rw [ELF32.text_resolveUnresolvedInstructions, hentries, List.foldl_append, List.foldl_cons,
      foldl_patch_getElem?_of_ne _ hafter, ELF32.text_resolveInstruction, ParserState.passUpTo,
      htarget, hpass]

/-- The word of a pending branch is in the final `.text` as its own fixup makes it. -/
theorem final_of_pending (h : p.PendingInText u) (hu : p.parse = .ok u) {pre : List Reduction}
    {i : Instruction} {label : Str} {s : ParserState} (hp : p.Pending pre i .bType label s u)
    {w : Word} (hw : emitted s i = [w]) :
    ∃ w', ELF32.patchedInsn .bType w (u.elf.target (hasher label))
        (s.pendingEntry .bType label).pcInsnNumber = some w' ∧
      u.elf.resolveUnresolvedInstructions.secText.data[s.elf.secText.data.length]? = some w' := by
  obtain ⟨w', hw'⟩ : ∃ w', ELF32.patchedInsn .bType w (u.elf.target (hasher label))
      (s.pendingEntry .bType label).pcInsnNumber = some w' := ⟨_, rfl⟩
  refine ⟨w', hw', ?_⟩
  have hslot := (s.pendingEntry_own_iff .bType label).mpr (h _ _ _ _ _ hp).2
  obtain ⟨t, post, -, ht, -⟩ := hp.split
  have htext := (step_instruction ht).text
  rw [hw] at htext
  obtain ⟨hmid, hfinal⟩ := rounds_of_pending h hu hp ht
  rw [htext, List.getElem?_concat_length] at hmid
  have htarget : (u.passUpTo s.elf.unresolvedInstructions).target (hasher label) =
      u.elf.target (hasher label) :=
    congrFun (u.elf.foldl_resolveInstruction s.elf.unresolvedInstructions).2 (hasher label)
  have htype : (s.pendingEntry .bType label).insnType = .bType := rfl
  have hhash : (s.pendingEntry .bType label).hash = hasher label := rfl
  obtain ⟨hlt, -⟩ := List.getElem?_eq_some_iff.mp hmid
  rw [hfinal, ELF32.text_resolveInstruction]
  simp only [patch, hslot, hmid, Option.getD_some, htype, hhash, htarget, hw',
    List.getElem?_set_self hlt]

end

/-! ## Sites -/

/-- The word of the instruction met in state `s`, with the block of its label met in state `v`: there
is one, and it shows the displacement. -/
def SiteRight (e : ELF32) (i : Instruction) (insnType : InstType) (s v : ParserState) : Prop :=
  (∃ t, step s (.instruction i) = .ok t ∧
      t.elf.secText.data.length = s.elf.secText.data.length + 1) ∧
    ∃ w, e.secText.data[s.elf.secText.data.length]? = some w ∧
      DecodesTo insnType w (4 * (v.elf.secText.data.length - s.elf.secText.data.length))

/-- A recorded index that comes out as a displacement of `m` instructions: halved by a branch, and
taken for a number of half words by both formats. -/
def KnownFits (insnType : InstType) (addr : Word) (m : ℤ) : Prop :=
  match insnType with
  | .bType => (2 ^ 12 : ℤ) ∣ addr.toNat / 2 - 2 * m
  | .jType => (2 ^ 20 : ℤ) ∣ addr.toNat - 2 * m
  | _ => False

/-- A pending reference that comes out as a displacement of `m` instructions: a branch, at an index
`n` that fits an entry, whose distance from the instruction before it to the index found for its
label is twice `m`. -/
def PendingFits (insnType : InstType) (found : Word) (n : ℕ) (m : ℤ) : Prop :=
  insnType = .bType ∧ n < 2 ^ 32 ∧ (2 ^ 12 : ℤ) ∣ found.toNat - (n - 1 : ℤ) - 2 * m

/-- What must be so for a site to be right. -/
def SiteFits (u : ParserState) (insnType : InstType) (label : Str) (s v : ParserState) : Prop :=
  match s.elf.resolvedLabels.lookup label with
  | some addr =>
    KnownFits insnType addr (v.elf.secText.data.length - s.elf.secText.data.length)
  | none =>
    PendingFits insnType (u.elf.target (hasher label)) s.elf.secText.data.length
      (v.elf.secText.data.length - s.elf.secText.data.length)

theorem siteFits_of_known {u s v : ParserState} {insnType : InstType} {label : Str} {addr : Word}
    (h : s.elf.resolvedLabels.lookup label = some addr) :
    SiteFits u insnType label s v ↔
      KnownFits insnType addr (v.elf.secText.data.length - s.elf.secText.data.length) := by
  rw [SiteFits, h]

theorem siteFits_of_unknown {u s v : ParserState} {insnType : InstType} {label : Str}
    (h : s.elf.resolvedLabels.lookup label = none) :
    SiteFits u insnType label s v ↔
      PendingFits insnType (u.elf.target (hasher label)) s.elf.secText.data.length
        (v.elf.secText.data.length - s.elf.secText.data.length) := by
  rw [SiteFits, h]

/-- The instruction of a site that is right has one word. -/
theorem SiteRight.length_emitted {e : ELF32} {i : Instruction} {insnType : InstType}
    {s v : ParserState} (h : SiteRight e i insnType s v) : (emitted s i).length = 1 := by
  obtain ⟨⟨t, ht, hlen⟩, -⟩ := h
  rw [(step_instruction ht).text, List.length_append] at hlen
  omega

section

variable {p : Program} {u : ParserState} {i : Instruction} {insnType : InstType} {label : Symbol}
  {s v : ParserState}

/-- The instruction of a site, in the run. -/
theorem Program.Site.split (hsite : p.Site i label s v) (hu : p.parse = .ok u) :
    ∃ pre post t, p.reductions = pre ++ .instruction i :: post ∧ run step start pre = .ok s ∧
      step s (.instruction i) = .ok t := by
  obtain ⟨pre, post, hsplit, hs⟩ := hsite.reference
  have hrun : run step start (pre ++ .instruction i :: post) = .ok u := hsplit ▸ hu
  obtain ⟨t, ht, -⟩ := run_at hs hrun
  exact ⟨pre, post, t, hsplit, hs, ht⟩

/-- A pending reference to a label that is attached to a block is a site. -/
theorem Program.Pending.site {pre : List Reduction} {l : Str}
    (hp : p.Pending pre i insnType l s u) (hdef : p.DefinesCode l) :
    ∃ label v, label.text = l ∧ p.Site i label s v := by
  obtain ⟨label, b, hmem, rfl⟩ := hdef
  obtain ⟨post, hsplit⟩ := hp.occurs
  obtain ⟨ss, ss', hss⟩ := List.append_of_mem hmem
  have hrun : run step start (reductionsOf (ss ++ .labelInstructions label b :: ss')) = .ok u := by
    rw [← hss]
    exact hp.after
  rw [reductionsOf_append] at hrun
  obtain ⟨v, hv⟩ := run_prefix_ok hrun
  exact ⟨label, v, rfl, ⟨insnType, hp.refers⟩, ⟨pre, post, hsplit, hp.before⟩, ⟨ss, b, ss', hss, hv⟩⟩

/-- A reference to a label that is known adds no entry. -/
theorem pended_of_known (href : i.reference = some (insnType, label.text)) {addr : Word}
    (haddr : s.elf.resolvedLabels.lookup label.text = some addr) : pended s i = [] := by
  have hex := s.elf.labelExists_iff.mpr ⟨addr, haddr⟩
  simp only [pended, href, hex, if_true]

/-- A site whose instruction adds no entry is right iff the word is right as it was emitted. -/
theorem siteRight_iff_of_silent (h : p.PendingInText u) (hu : p.parse = .ok u)
    (hsite : p.Site i label s v) {w : Word} (hw : emitted s i = [w]) (hno : pended s i = []) :
    SiteRight u.elf.resolveUnresolvedInstructions i insnType s v ↔
      DecodesTo insnType w (4 * (v.elf.secText.data.length - s.elf.secText.data.length)) := by
  obtain ⟨pre, post, t, hsplit, hs, ht⟩ := hsite.split hu
  have htext := (step_instruction ht).text
  rw [hw] at htext
  have hfinal := final_of_silent h hu hsplit hs ht hno hw
  simp only [SiteRight, hfinal, Option.some.injEq, exists_eq_left']
  exact and_iff_right ⟨t, ht, by simp [htext]⟩

/-- The site of a branch to a label that is not known: the word shows what the fixup puts in. -/
theorem siteRight_pending_branch {op : OpcodeBranch} {rs1 rs2 : Reg} (h : p.PendingInText u)
    (hu : p.parse = .ok u) (hsite : p.Site (.branch op rs1 rs2 label) label s v)
    (hnone : s.elf.resolvedLabels.lookup label.text = none)
    (hrange : DisplacementRange .bType
      (4 * (v.elf.secText.data.length - s.elf.secText.data.length))) :
    SiteRight u.elf.resolveUnresolvedInstructions (.branch op rs1 rs2 label) .bType s v ↔
      PendingFits .bType (u.elf.target (hasher label.text)) s.elf.secText.data.length
        (v.elf.secText.data.length - s.elf.secText.data.length) := by
  obtain ⟨pre, post, t, hsplit, hs, ht⟩ := hsite.split hu
  have hp : p.Pending pre (.branch op rs1 rs2 label) .bType label.text s u :=
    ⟨⟨post, hsplit⟩, rfl, hs, s.elf.labelExists_eq_false.mpr hnone, hu⟩
  have hem : emitted s (.branch op rs1 rs2 label) =
      [emitBTypeInstruction (s.branchOffset label.text) rs1.toUnsigned rs2.toUnsigned 0 0x63] := by
    cases op
    rfl
  have htext := (step_instruction ht).text
  rw [hem] at htext
  -- the slot is the branch's own index, and the difference is taken from the one before it
  have hslot := (s.pendingEntry_own_iff .bType label.text).mpr (h _ _ _ _ _ hp).2
  have hlt : s.elf.secText.data.length < 2 ^ 32 := by
    rw [← hslot]
    exact BitVec.isLt _
  have hpc := congrArg BitVec.toNat (s.pendingEntry_pc .bType label.text)
  have hone : (1 : Word).toNat = 1 := rfl
  rw [BitVec.toNat_sub, hslot, hone] at hpc
  have hdvd := dvd_resolvedEffectiveOffset (u.elf.target (hasher label.text))
    (s.pendingEntry .bType label.text).pcInsnNumber
  obtain ⟨w', hw', hfinal⟩ := final_of_pending h hu hp hem
  obtain ⟨ho, hf, -, -, hi⟩ := fields_of_patched_bType hw'
  have hdec := decodesTo_bType_iff (by rw [ho, opcode_emitBType]; rfl)
    (by rw [hf, funct3_emitBType]; rfl) hi hrange
  constructor
  · rintro ⟨-, w, hw, hd⟩
    cases hfinal.symm.trans hw
    have hfit := hdec.mp hd
    exact ⟨rfl, hlt, by omega⟩
  · rintro ⟨-, -, hfit⟩
    exact ⟨⟨t, ht, by simp [htext]⟩, w', hfinal, hdec.mpr (by omega)⟩

/-- **One site.** If all pending entries aim at their own words, the word is right exactly when what
reaches the encoder fits. -/
theorem site_iff (h : p.PendingInText u) (hu : p.parse = .ok u) (hsite : p.Site i label s v)
    (href : i.reference = some (insnType, label.text))
    (hrange : DisplacementRange insnType
      (4 * (v.elf.secText.data.length - s.elf.secText.data.length))) :
    SiteRight u.elf.resolveUnresolvedInstructions i insnType s v ↔
      SiteFits u insnType label.text s v := by
  have hhref := href
  unfold Instruction.reference at hhref
  split at hhref
  · rename_i op rs1 rs2 symbol
    cases op
    obtain ⟨rfl, hsym⟩ : InstType.bType = insnType ∧ symbol.text = label.text := by
      simpa using hhref
    obtain rfl : symbol = label := Symbol.ext hsym
    cases haddr : s.elf.resolvedLabels.lookup symbol.text with
    | some addr =>
        -- the label is known: the word shows half of its index
        have hem := emitted_branch_of_some haddr rs1 rs2
        rw [siteRight_iff_of_silent h hu hsite hem (pended_of_known href haddr),
          decodesTo_bType_iff (by rw [opcode_emitBType]; rfl) (by rw [funct3_emitBType]; rfl)
            (immB_emitBType _ _ _ _ _) hrange, siteFits_of_known haddr]
        rfl
    | none =>
        rw [siteRight_pending_branch h hu hsite haddr hrange, siteFits_of_unknown haddr]
  · rename_i symbol
    obtain ⟨rfl, hsym⟩ : InstType.jType = insnType ∧ symbol.text = label.text := by
      simpa using hhref
    obtain rfl : symbol = label := Symbol.ext hsym
    cases haddr : s.elf.resolvedLabels.lookup symbol.text with
    | some addr =>
        rw [siteRight_iff_of_silent h hu hsite (emitted_jump_of_some haddr)
          (pended_of_known href haddr), decodesTo_jType_iff addr hrange, siteFits_of_known haddr]
        rfl
    | none =>
        -- a pending jump is excluded
        obtain ⟨pre, post, t, hsplit, hs, -⟩ := hsite.split hu
        have hbad := (h pre _ .jType symbol.text s
          ⟨⟨post, hsplit⟩, href, hs, s.elf.labelExists_eq_false.mpr haddr, hu⟩).1
        cases hbad
  · cases hhref

/-- **One branch in two programs**, known in one and pending in the other. If the entries of both aim
at their own words, the final words are one word that carries the registers exactly when the two ways
of the branch agree. -/
theorem Program.finalWords_iff {p₂ : Program} {u₂ s₂ v₂ : ParserState} {rs1 rs2 : Reg} {addr : Word}
    (h : p.PendingInText u) (hu : p.parse = .ok u)
    (hsite : p.Site (.branch .beq rs1 rs2 label) label s v)
    (h₂ : p₂.PendingInText u₂) (hu₂ : p₂.parse = .ok u₂)
    (hsite₂ : p₂.Site (.branch .beq rs1 rs2 label) label s₂ v₂)
    (hknown : s.elf.resolvedLabels.lookup label.text = some addr)
    (hunknown : s₂.elf.labelExists label.text = false) :
    (∃ w, u.elf.resolveUnresolvedInstructions.secText.data[s.elf.secText.data.length]? = some w ∧
        u₂.elf.resolveUnresolvedInstructions.secText.data[s₂.elf.secText.data.length]? = some w ∧
        (Instruction.branch .beq rs1 rs2 label).Carries w) ↔
      AgreesWhen (.branch .beq rs1 rs2 label) label.text addr (u₂.elf.target (hasher label.text))
        s₂ := by
  obtain ⟨pre, post, t, hsplit, hs, ht⟩ := hsite.split hu
  obtain ⟨pre₂, post₂, t₂, hsplit₂, hs₂, ht₂⟩ := hsite₂.split hu₂
  have hp₂ : p₂.Pending pre₂ (.branch .beq rs1 rs2 label) .bType label.text s₂ u₂ :=
    ⟨⟨post₂, hsplit₂⟩, rfl, hs₂, hunknown, hu₂⟩
  obtain ⟨hmid, hfinal₂⟩ := rounds_of_pending h₂ hu₂ hp₂ ht₂
  have htarget : (u₂.passUpTo s₂.elf.unresolvedInstructions).target (hasher label.text) =
      u₂.elf.target (hasher label.text) :=
    congrFun (u₂.elf.foldl_resolveInstruction s₂.elf.unresolvedInstructions).2 (hasher label.text)
  rw [← agree_branch_when ⟨rfl, ht, ht₂, hknown, hunknown, htarget, hmid⟩]
  -- the known branch has one word, and it is final; the pending one has one word too
  have hw := emitted_branch_of_some hknown rs1 rs2
  have hfinal := final_of_silent h hu hsplit hs ht (pended_of_known rfl hknown) hw
  have htext := (step_instruction ht).text
  obtain ⟨w₂, htext₂, -⟩ := h₂.own hp₂ ht₂
  rw [hw] at htext
  unfold Agree
  rw [hfinal, hfinal₂, htext, htext₂]
  constructor
  · rintro ⟨w, hw, hround, hc⟩
    obtain rfl := Option.some.inj hw
    exact ⟨_, rfl, by simp, hround, hc⟩
  · rintro ⟨w, hw, -, hround, hc⟩
    cases List.append_cancel_left hw
    exact ⟨_, rfl, hround, hc⟩

end

/-! ## Programs -/

/-- Every reference to a label has its word in the final `.text`, and it shows the displacement to
the label's block. -/
def Program.ControlFlow (p : Program) (e : ELF32) : Prop :=
  ∀ i insnType label s v, p.Site i label s v → i.reference = some (insnType, label.text) →
    SiteRight e i insnType s v

/-- Every reference to a label fits. -/
def Program.AllFit (p : Program) (u : ParserState) : Prop :=
  ∀ i insnType label s v, p.Site i label s v → i.reference = some (insnType, label.text) →
    SiteFits u insnType label.text s v

/-- All code is under `.section .text`. -/
def Program.CodeInText (p : Program) : Prop :=
  ∀ pre i post s, p.reductions = pre ++ .instruction i :: post → run step start pre = .ok s →
    s.currentSection = str ".text"

/-- Every label that is referred to is attached to a block. -/
def Program.ReferencesDefined (p : Program) : Prop :=
  ∀ i insnType label, .instruction i ∈ p.reductions → i.reference = some (insnType, label) →
    p.DefinesCode label

/-- Every displacement is in the range of its format. -/
def Program.DisplacementsInRange (p : Program) : Prop :=
  ∀ i insnType label s v, p.Site i label s v → i.reference = some (insnType, label.text) →
    DisplacementRange insnType (4 * (v.elf.secText.data.length - s.elf.secText.data.length))

/-- **When control flow is right.** If all references fit, every word shows its displacement. For a
`.text` whose indices fit an entry the converse holds too. -/
theorem Program.controlFlow_iff (p : Program) (u : ParserState) (hu : p.parse = .ok u)
    (htext : p.CodeInText) (hdef : p.ReferencesDefined) (hrange : p.DisplacementsInRange) :
    (p.AllFit u → p.ControlFlow u.elf.resolveUnresolvedInstructions) ∧
      (u.elf.secText.data.length ≤ 2 ^ 32 →
        p.ControlFlow u.elf.resolveUnresolvedInstructions → p.AllFit u) := by
  have hdefined : ∀ {pre i insnType label s}, p.Pending pre i insnType label s u →
      p.DefinesCode label := by
    intro pre i insnType label s hp
    obtain ⟨post, hsplit⟩ := hp.occurs
    exact hdef i insnType label (by simp [hsplit]) hp.refers
  have hsection : ∀ {pre i insnType label s}, p.Pending pre i insnType label s u →
      s.currentSection = str ".text" := by
    intro pre i insnType label s hp
    obtain ⟨post, hsplit⟩ := hp.occurs
    exact htext pre i post s hsplit hp.before
  have hboth : p.PendingInText u →
      (p.ControlFlow u.elf.resolveUnresolvedInstructions ↔ p.AllFit u) := by
    intro h
    constructor
    · intro hc i insnType label s v hsite href
      have hsiteiff := site_iff h hu hsite href (hrange i insnType label s v hsite href)
      exact hsiteiff.mp (hc i insnType label s v hsite href)
    · intro hf i insnType label s v hsite href
      have hsiteiff := site_iff h hu hsite href (hrange i insnType label s v hsite href)
      exact hsiteiff.mpr (hf i insnType label s v hsite href)
  constructor
  · intro hfit
    refine (hboth ?_).mpr hfit
    intro pre i insnType l s hp
    obtain ⟨label, v, rfl, hsite⟩ := hp.site (hdefined hp)
    have hnone := s.elf.labelExists_eq_false.mp hp.unknown
    obtain ⟨hb, hlt, -⟩ := (siteFits_of_unknown hnone).mp (hfit i insnType label s v hsite hp.refers)
    exact ⟨hb, Or.inl ⟨hsection hp, hlt⟩⟩
  · intro hlen hc
    refine (hboth ?_).mp hc
    intro pre i insnType l s hp
    obtain ⟨label, v, rfl, hsite⟩ := hp.site (hdefined hp)
    have hone := (hc i insnType label s v hsite hp.refers).length_emitted
    rcases length_emitted_reference hp.refers hp.unknown with ⟨hb, -⟩ | ⟨-, hnil⟩
    · obtain ⟨t, post, -, ht, hrest⟩ := hp.split
      have hle := (run_text hrest).length_le
      rw [(step_instruction ht).text, List.length_append, hone] at hle
      exact ⟨hb, Or.inl ⟨hsection hp, by omega⟩⟩
    · rw [hnil] at hone
      cases hone

/-! ## Two programs -/

section

variable {p : Program} {u : ParserState}

/-- In a short program every displacement is in range. -/
theorem Program.displacementsInRange_of_length (hu : p.parse = .ok u)
    (hlen : u.elf.secText.data.length < 2 ^ 10) : p.DisplacementsInRange := by
  intro i insnType label s v hsite href
  have hrun : run step start p.reductions = .ok u := hu
  have hs : s.elf.secText.data.length ≤ u.elf.secText.data.length := by
    obtain ⟨pre, post, hsplit, hs⟩ := hsite.reference
    exact (run_text (run_behind hs (hsplit ▸ hrun))).length_le
  have hv : v.elf.secText.data.length ≤ u.elf.secText.data.length := by
    obtain ⟨ss, b, ss', hss, hv⟩ := hsite.block
    rw [Program.reductions, hss, reductionsOf_append] at hrun
    exact (run_text (run_behind hv hrun)).length_le
  unfold DisplacementRange
  split
  · omega
  · omega
  · trivial

/-- The reduction leaves `currentSection` alone. -/
def Reduction.keepsSection : Reduction → Bool
  | .directive .text => true
  | .directive (.global _) => true
  | .directive _ => false
  | _ => true

theorem step_currentSection {r : Reduction} (hr : r.keepsSection = true) {s t : ParserState}
    (h : step s r = .ok t) : t.currentSection = s.currentSection := by
  cases r with
  | instruction i => exact (step_instruction h).currentSection
  | labelInstructions label => cases h; rfl
  | labelDirective label =>
      cases h
      simp only [labelDirectiveAction]
      split_ifs <;> rfl
  | directive d =>
      cases h
      cases d with
      | text => rfl
      | global symbol => rfl
      | _ => cases hr

/-- All code is under `.section .text` if that comes first and no other directive changes it. -/
theorem Program.codeInText_of_keep {rs : List Reduction}
    (hred : p.reductions = .directive .sectionText :: rs)
    (hkeep : rs.all Reduction.keepsSection = true) : p.CodeInText := by
  intro pre i post s hsplit hs
  rw [hred] at hsplit
  cases pre with
  | nil => cases hsplit
  | cons r pre =>
      injection hsplit with hr hrest
      subst hr
      obtain ⟨t, ht, hs⟩ := run_cons_eq_ok.mp hs
      cases ht
      rw [List.all_eq_true] at hkeep
      exact run_project (fun s => s.currentSection)
        (fun r hr _ _ hstep => step_currentSection (hkeep r (by simp [hrest, hr])) hstep) hs

/-- The statement attaches the label to instructions. -/
def Statement.attaches (label : Str) : Statement → Bool
  | .labelInstructions l _ => l.text == label
  | _ => false

/-- If the reduction is an instruction that refers to a label, the program defines that label. -/
def Program.definesReference (p : Program) : Reduction → Bool
  | .instruction i =>
    match i.reference with
    | some (_, label) => p.statements.any (Statement.attaches label)
    | none => true
  | _ => true

theorem Program.referencesDefined_of_all (h : p.reductions.all p.definesReference = true) :
    p.ReferencesDefined := by
  intro i insnType label hmem href
  have hdef := List.all_eq_true.mp h _ hmem
  simp only [definesReference, href, List.any_eq_true] at hdef
  obtain ⟨st, hst, hatt⟩ := hdef
  cases st with
  | labelInstructions l b => exact ⟨l, b, hst, by simpa [Statement.attaches] using hatt⟩
  | labelDirective l d => cases hatt
  | directive d => cases hatt

end

/-- The control flow of `forward` is right: the branch in its first word shows four bytes. -/
theorem forward_controlFlow : ∃ u, forward.parse = .ok u ∧
    forward.ControlFlow u.elf.resolveUnresolvedInstructions := by
  refine ⟨_, rfl, (forward.controlFlow_iff _ rfl (Program.codeInText_of_keep rfl (by decide))
    (Program.referencesDefined_of_all (by decide))
    (Program.displacementsInRange_of_length rfl (by decide))).1 ?_⟩
  intro i insnType label s v hsite href
  obtain ⟨pre, post, hsplit, hs⟩ := hsite.reference
  obtain ⟨rfl, hlabel, rfl⟩ := forward_reference hsplit hs href
  obtain ⟨ss, b, ss', hss, hv⟩ := hsite.block
  have hsts : forward.statements =
      [.directive .sectionText, .labelInstructions (sym "a") (block (.branch .beq 5 6 (sym "b")) []),
        .labelInstructions (sym "b") (block (.psuedo .ret) [])] := rfl
  rw [hsts] at hss
  rcases ss with _ | ⟨s₁, _ | ⟨s₂, _ | ⟨s₃, ss⟩⟩⟩
  · cases hss
  · cases hss
    exact absurd hlabel (by decide)
  · cases hss
    cases hv
    exact (siteFits_of_unknown (by decide)).mpr ⟨rfl, by decide, by decide⟩
  · simp at hss

/-- In `strlen.s`, which is in the class and is accepted, `j loop` has no word. -/
theorem strlen_not_controlFlow : ¬ ∀ (p : Program) u, p.parse = .ok u → p.CodeInText →
    p.ReferencesDefined → p.DisplacementsInRange →
    p.ControlFlow u.elf.resolveUnresolvedInstructions := by
  intro h
  have hflow := h strlen _ rfl (Program.codeInText_of_keep rfl (by decide))
    (Program.referencesDefined_of_all (by decide))
    (Program.displacementsInRange_of_length rfl (by decide))
  have hlen := (hflow (.psuedo (.jump (sym "loop"))) .jType (sym "loop") _ _
    ⟨⟨_, rfl⟩, ⟨strlen.reductions.take 8, _, rfl, rfl⟩, ⟨strlen.statements.take 3, _, _, rfl, rfl⟩⟩
    rfl).length_emitted
  revert hlen
  decide

end RiscvAssembler
