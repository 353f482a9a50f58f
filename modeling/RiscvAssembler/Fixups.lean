import RiscvAssembler.Labels

/-!
# Fixups of branches and jumps

* `fixupsOwn_iff`: every pending entry aims at the word of its own statement, the pass leaves the
  words of other statements alone and no two entries aim at one word, exactly when every pending
  reference is a branch met in `.text` (or before the first word). A jump records the slot of a word
  that it never emits.
* `agree_iff`: when a branch emitted with a known label and the same branch resolved by the pass
  agree, and show their registers. Neither path is right for unequal registers, and the two
  displacements differ by a factor and an offset.
* `linkerSafe_iff`: when the pass leaves references to undefined labels alone.
-/

namespace RiscvAssembler

open Runs ParserState

/-! ## Slots -/

namespace ParserState

/-- The next word is in `.text`, and its index fits a slot; or it is the first word. -/
def OwnSlot (s : ParserState) : Prop :=
  s.currentSection = str ".text" ∧ s.elf.secText.data.length < 2 ^ 32 ∨
    s.elf.secText.data.length = 0

instance (s : ParserState) : Decidable s.OwnSlot := by unfold OwnSlot; infer_instance

/-- A pending entry aims at the next word iff that is in `.text`. -/
theorem pendingEntry_own_iff (s : ParserState) (insnType : InstType) (label : Str) :
    (s.pendingEntry insnType label).insnNumber.toNat = s.elf.secText.data.length ↔ s.OwnSlot := by
  simp only [pendingEntry, ELF32.getNextInsnNumber, Text.nextIndex, OwnSlot]
  split_ifs with hsec
  · rw [BitVec.toNat_setWidth, BitVec.toNat_ofNat]
    simp only [hsec, true_and]
    omega
  · simp only [hsec, false_and, false_or]
    exact eq_comm

/-- The `pc` of an entry is one less than its slot. -/
theorem pendingEntry_pc (s : ParserState) (insnType : InstType) (label : Str) :
    (s.pendingEntry insnType label).pcInsnNumber =
      (s.pendingEntry insnType label).insnNumber - 1 := by
  have h64 : (1 : BitVec 64).toNat = 1 := rfl
  have h32 : (1 : Word).toNat = 1 := rfl
  apply BitVec.eq_of_toNat_eq
  simp only [pendingEntry, BitVec.toNat_setWidth, BitVec.toNat_sub, h64, h32]
  omega

end ParserState

/-- Every entry comes from a reference that found its label without an address. -/
theorem exists_of_mem_unresolved {rs : List Reduction} {u : ParserState}
    (h : run step start rs = .ok u) {entry : UnresolvedInst32}
    (hentry : entry ∈ u.elf.unresolvedInstructions) :
    ∃ pre i post s insnType label, rs = pre ++ .instruction i :: post ∧
      run step start pre = .ok s ∧ i.reference = some (insnType, label) ∧
      s.elf.labelExists label = false ∧ entry = s.pendingEntry insnType label := by
  have hstart : entry ∉ start.elf.unresolvedInstructions := List.not_mem_nil
  obtain ⟨pre, r, post, s, t, hrs, hs, hstep, hold, hnew⟩ :=
    run_switch (fun s : ParserState => entry ∈ s.elf.unresolvedInstructions) hstart hentry h
  have hpended : entry ∈ pendedBy s r := by
    rw [step_unresolved hstep, List.mem_append] at hnew
    exact hnew.resolve_left hold
  cases r with
  | instruction i =>
      simp only [pendedBy, pended] at hpended
      split at hpended
      · rename_i insnType label href
        split_ifs at hpended with hex
        · cases hpended
        · exact ⟨pre, i, post, s, insnType, label, hrs, hs, href, by simpa using hex,
            List.mem_singleton.mp hpended⟩
      · cases hpended
  | _ => cases hpended

/-- A branch emits one word, and a jump to an unknown label none. -/
theorem length_emitted_reference {s : ParserState} {i : Instruction} {insnType : InstType}
    {label : Str} (href : i.reference = some (insnType, label))
    (hnew : s.elf.labelExists label = false) :
    insnType = .bType ∧ (emitted s i).length = 1 ∨ insnType = .jType ∧ emitted s i = [] := by
  unfold Instruction.reference at href
  split at href
  · cases href
    exact Or.inl ⟨rfl, rfl⟩
  · cases href
    simp [emitted, s.elf.labelExists_eq_false.mp hnew]
  · cases href

/-- The word of a branch to a label that is known. -/
theorem emitted_branch_of_some {s : ParserState} {symbol : Symbol} {addr : Word}
    (h : s.elf.resolvedLabels.lookup symbol.text = some addr) (rs1 rs2 : Reg) :
    emitted s (.branch .beq rs1 rs2 symbol) =
      [emitBTypeInstruction addr rs1.toUnsigned rs2.toUnsigned 0 0x63] := by
  simp only [emitted, branchOffset, h]
  rfl

/-- The word of a branch to a label that is not known. -/
theorem emitted_branch_of_none {s : ParserState} {symbol : Symbol}
    (h : s.elf.resolvedLabels.lookup symbol.text = none) (rs1 rs2 : Reg) :
    emitted s (.branch .beq rs1 rs2 symbol) =
      [emitBTypeInstruction (hasher symbol.text) rs1.toUnsigned rs2.toUnsigned 0 0x63] := by
  simp only [emitted, branchOffset, h]
  rfl

/-- The word of a jump to a label that is known. -/
theorem emitted_jump_of_some {s : ParserState} {symbol : Symbol} {addr : Word}
    (h : s.elf.resolvedLabels.lookup symbol.text = some addr) :
    emitted s (.psuedo (.jump symbol)) = [emitJTypeInstruction (addr <<< 1 &&& 0x1FFFFF) 0 jal32] := by
  simp only [emitted, h]

/-! ## Which fixups patch their own instruction -/

/-- Fixups patch only their own instruction. -/
structure Program.FixupsOwn (p : Program) (u : ParserState) : Prop where
  /-- A pending entry has the index of the word that its own statement appends. -/
  own : ∀ pre i insnType label s t, p.Pending pre i insnType label s u →
    step s (.instruction i) = .ok t →
    ∃ w, t.elf.secText.data = s.elf.secText.data ++ [w] ∧
      (s.pendingEntry insnType label).insnNumber.toNat = s.elf.secText.data.length
  /-- The pass leaves the words of an instruction that refers to no label as they were emitted. -/
  frame : ∀ pre i post s t k, p.reductions = pre ++ .instruction i :: post →
    run step start pre = .ok s → step s (.instruction i) = .ok t → i.reference = none →
    s.elf.secText.data.length ≤ k → k < t.elf.secText.data.length →
    u.elf.resolveUnresolvedInstructions.secText.data[k]? = t.elf.secText.data[k]?
  /-- No two entries aim at one word. -/
  apart : u.elf.unresolvedInstructions.Pairwise fun a b => a.insnNumber ≠ b.insnNumber

/-- Every pending reference of the program is a branch met in `.text`. -/
def Program.PendingInText (p : Program) (u : ParserState) : Prop :=
  ∀ pre i insnType label s, p.Pending pre i insnType label s u → insnType = .bType ∧ s.OwnSlot

section

variable {p : Program} {u : ParserState}

/-- A pending reference of such a program appends one word, at the slot of its entry. -/
theorem Program.PendingInText.own (h : p.PendingInText u) {pre : List Reduction} {i : Instruction}
    {insnType : InstType} {label : Str} {s t : ParserState}
    (hp : p.Pending pre i insnType label s u) (ht : step s (.instruction i) = .ok t) :
    ∃ w, t.elf.secText.data = s.elf.secText.data ++ [w] ∧
      (s.pendingEntry insnType label).insnNumber.toNat = s.elf.secText.data.length := by
  obtain ⟨rfl, hown⟩ := h pre i insnType label s hp
  rcases length_emitted_reference hp.refers hp.unknown with ⟨-, hlen⟩ | ⟨hj, -⟩
  · obtain ⟨w, hw⟩ := List.length_eq_one_iff.mp hlen
    exact ⟨w, by rw [(step_instruction ht).text, hw], (s.pendingEntry_own_iff _ _).mpr hown⟩
  · cases hj

/-- The slots of such a program are below the length of `.text` and increase. -/
theorem Program.PendingInText.sorted (h : p.PendingInText u) (hu : p.parse = .ok u)
    {rs post : List Reduction} (hsplit : p.reductions = rs ++ post) {s : ParserState}
    (hs : run step start rs = .ok s) :
    s.elf.unresolvedInstructions.Pairwise (fun a b => a.insnNumber.toNat < b.insnNumber.toNat) ∧
      ∀ entry ∈ s.elf.unresolvedInstructions,
        entry.insnNumber.toNat < s.elf.secText.data.length := by
  refine run_history (fun rs s => ∀ post, p.reductions = rs ++ post →
    s.elf.unresolvedInstructions.Pairwise (fun a b => a.insnNumber.toNat < b.insnNumber.toNat) ∧
      ∀ entry ∈ s.elf.unresolvedInstructions,
        entry.insnNumber.toNat < s.elf.secText.data.length) ?_ ?_ hs post hsplit
  · intro _ _
    exact ⟨List.Pairwise.nil, by simp [start, show ELF32.init.unresolvedInstructions = [] from rfl]⟩
  · intro rs s r t hs ih hstep post hsplit
    rw [List.append_assoc] at hsplit
    obtain ⟨hsorted, hbelow⟩ := ih _ hsplit
    have hgrow : s.elf.secText.data.length ≤ t.elf.secText.data.length := by
      rw [step_text hstep]
      simp
    rw [step_unresolved hstep]
    rcases hr : pendedBy s r with _ | ⟨entry, rest⟩
    · rw [List.append_nil]
      exact ⟨hsorted, fun entry he => (hbelow entry he).trans_le hgrow⟩
    · -- a new entry: its slot is the old length, and the word is there now
      cases r with
      | instruction i =>
          simp only [pendedBy, pended] at hr
          split at hr
          · rename_i insnType label href
            split_ifs at hr with hex
            cases hr
            have hp : p.Pending rs i insnType label s u :=
              ⟨⟨post, hsplit⟩, href, hs, by simpa using hex, hu⟩
            obtain ⟨w, htext, hslot⟩ := h.own hp hstep
            constructor
            · rw [List.pairwise_append]
              refine ⟨hsorted, List.pairwise_singleton _ _, ?_⟩
              intro a ha b hb
              cases List.mem_singleton.mp hb
              rw [hslot]
              exact hbelow a ha
            · intro entry he
              rcases List.mem_append.mp he with hold | hnew
              · exact (hbelow entry hold).trans_le hgrow
              · cases List.mem_singleton.mp hnew
                rw [hslot, htext]
                simp
          · cases hr
      | _ => cases hr

/-- No entry of such a program aims at a word of an instruction that adds none. -/
theorem Program.PendingInText.slot_ne (h : p.PendingInText u) (hu : p.parse = .ok u)
    {pre post : List Reduction} {i : Instruction} {s t : ParserState} {k : ℕ}
    (hsplit : p.reductions = pre ++ .instruction i :: post) (hs : run step start pre = .ok s)
    (ht : step s (.instruction i) = .ok t) (hno : pended s i = [])
    (hlo : s.elf.secText.data.length ≤ k) (hhi : k < t.elf.secText.data.length)
    {entry : UnresolvedInst32} (hentry : entry ∈ u.elf.unresolvedInstructions) :
    entry.insnNumber.toNat ≠ k := by
  obtain ⟨pre', i', post', s', insnType, label, hsplit', hs', href', hnew, rfl⟩ :=
    exists_of_mem_unresolved (show run step start p.reductions = .ok u from hu) hentry
  have hp : p.Pending pre' i' insnType label s' u := ⟨⟨post', hsplit'⟩, href', hs', hnew, hu⟩
  obtain ⟨t', -, -, ht', -⟩ := hp.split
  obtain ⟨w, htext, hslot⟩ := h.own hp ht'
  rw [hslot]
  rcases append_cons_cases (hsplit.symm.trans hsplit') with ⟨m, rfl⟩ | ⟨rfl, hi⟩ | ⟨m, rfl⟩
  · -- the reference comes later, behind the words of `i`
    have hle := (run_text (run_after hs ht hs')).length_le
    omega
  · cases hi
    obtain rfl := run_unique hs hs'
    rw [hp.pended_eq] at hno
    cases hno
  · -- the reference comes earlier, and its word is in front of those of `i`
    have hle := (run_text (run_after hs' ht' hs)).length_le
    rw [htext, List.length_append, List.length_singleton] at hle
    omega

end

/-- **When fixups patch only their own instruction.** -/
theorem Program.fixupsOwn_iff (p : Program) (u : ParserState) (hu : p.parse = .ok u) :
    p.FixupsOwn u ↔ p.PendingInText u := by
  constructor
  · intro h pre i insnType label s hp
    obtain ⟨t, -, -, ht, -⟩ := hp.split
    obtain ⟨w, htext, hslot⟩ := h.own pre i insnType label s t hp ht
    refine ⟨?_, (s.pendingEntry_own_iff _ _).mp hslot⟩
    rcases length_emitted_reference hp.refers hp.unknown with ⟨hb, -⟩ | ⟨-, hnil⟩
    · exact hb
    · -- a jump has no word at all
      rw [(step_instruction ht).text, hnil] at htext
      simp at htext
  · intro h
    have hrun : run step start p.reductions = .ok u := hu
    refine ⟨fun pre i insnType label s t hp ht => h.own hp ht, ?_, ?_⟩
    · intro pre i post s t k hsplit hs ht href hlo hhi
      have hpost := run_after hs ht (hsplit ▸ hrun)
      rw [ELF32.text_resolveUnresolvedInstructions,
        foldl_patch_getElem?_of_ne _ fun entry he =>
          h.slot_ne hu hsplit hs ht (by simp only [pended, href]) hlo hhi he]
      obtain ⟨ws, hws⟩ := run_text hpost
      rw [← hws, List.getElem?_append_left hhi]
    · refine (h.sorted hu (List.append_nil _).symm hrun).1.imp ?_
      intro entry entry' hlt heq
      rw [heq] at hlt
      omega

/-- The branch to `b` is the only reference of `forward`. -/
theorem forward_reference {pre post : List Reduction} {i : Instruction} {insnType : InstType}
    {label : Str} {s : ParserState} (hsplit : forward.reductions = pre ++ .instruction i :: post)
    (hs : run step start pre = .ok s) (href : i.reference = some (insnType, label)) :
    insnType = .bType ∧ label = str "b" ∧ s = start.directiveAction .sectionText := by
  have hred : forward.reductions =
      [.directive .sectionText, .instruction (.branch .beq 5 6 (sym "b")),
        .labelInstructions (sym "a"), .instruction (.psuedo .ret), .labelInstructions (sym "b")] :=
    rfl
  rw [hred] at hsplit
  rcases pre with _ | ⟨r₁, _ | ⟨r₂, _ | ⟨r₃, _ | ⟨r₄, _ | ⟨r₅, pre⟩⟩⟩⟩⟩
  · cases hsplit
  · cases hsplit
    cases href
    cases hs
    exact ⟨rfl, rfl, rfl⟩
  · cases hsplit
  · cases hsplit
    cases href
  · cases hsplit
  · simp at hsplit

/-- The branch to `b` is the only pending reference of `forward`. -/
theorem forward_pending {pre : List Reduction} {i : Instruction} {insnType : InstType} {label : Str}
    {s u : ParserState} (hp : forward.Pending pre i insnType label s u) :
    insnType = .bType ∧ label = str "b" ∧ s = start.directiveAction .sectionText :=
  have ⟨_, hsplit⟩ := hp.occurs
  forward_reference hsplit hp.before hp.refers

/-- The one fixup of `forward` patches the branch itself. -/
theorem forward_fixupsOwn : ∃ u, forward.parse = .ok u ∧ forward.FixupsOwn u := by
  refine ⟨_, rfl, (forward.fixupsOwn_iff _ rfl).mpr ?_⟩
  intro pre i insnType label s hp
  obtain ⟨rfl, -, rfl⟩ := forward_pending hp
  exact ⟨rfl, Or.inr rfl⟩

/-- In `strlen.s` the fixup of `j loop`, which has no word, rewrites the `mv` after it. -/
theorem strlen_not_fixupsOwn : ¬ ∀ (p : Program) u, p.parse = .ok u → p.FixupsOwn u := by
  intro h
  have hframe := (h strlen _ rfl).frame (strlen.reductions.take 10) (.psuedo (.mov 10 5))
    (strlen.reductions.drop 11) _ _ 5 rfl rfl rfl rfl (by decide) (by decide)
  revert hframe
  decide

/-! ## Known and unknown labels -/

/-- The word has the registers of the statement in their fields. -/
def Instruction.Carries (w : Word) : Instruction → Prop
  | .branch _ rs1 rs2 _ => Rv32i.rs1 w = rs1 ∧ Rv32i.rs2 w = rs2
  | _ => True

/-- One statement met in two places. In `s₁` the label has address `addr₁`, and the statement emits
its word at once. In `s₂` it has none yet; when the pass comes to the entry the object is `e`, the
statement's word is as it was emitted, and the address found is `addr₂`. -/
structure BothWays (i : Instruction) (insnType : InstType) (label : Str) (addr₁ addr₂ : Word)
    (s₁ t₁ s₂ t₂ : ParserState) (e : ELF32) : Prop where
  refers : i.reference = some (insnType, label)
  step₁ : step s₁ (.instruction i) = .ok t₁
  step₂ : step s₂ (.instruction i) = .ok t₂
  known : s₁.elf.resolvedLabels.lookup label = some addr₁
  unknown : s₂.elf.labelExists label = false
  found : e.target (hasher label) = addr₂
  emitted : e.secText.data[s₂.elf.secText.data.length]? =
    t₂.elf.secText.data[s₂.elf.secText.data.length]?

/-- The word emitted at once is the word that the pass makes, and it carries the registers. -/
def Agree (i : Instruction) (insnType : InstType) (label : Str) (s₁ t₁ s₂ t₂ : ParserState)
    (e : ELF32) : Prop :=
  ∃ w, t₁.elf.secText.data = s₁.elf.secText.data ++ [w] ∧
    t₂.elf.secText.data.length = s₂.elf.secText.data.length + 1 ∧
    (e.resolveInstruction (s₂.pendingEntry insnType label)).secText.data[
      s₂.elf.secText.data.length]? = some w ∧
    i.Carries w

/-- The condition for a branch: it names one register twice, and half of the index that the first
path shows has the low bits of what the second path shows, the distance from the instruction before
the branch (or half the hash, if the entry aims at another word). No jump meets it. -/
def AgreesWhen (i : Instruction) (label : Str) (addr₁ addr₂ : Word) (s₂ : ParserState) : Prop :=
  match i with
  | .branch _ rs1 rs2 _ =>
    rs1 = rs2 ∧ (2 ^ 12 : ℤ) ∣ addr₁.toNat / 2 -
      (if s₂.OwnSlot then addr₂.toNat - (s₂.elf.secText.data.length - 1)
        else (hasher label).toNat / 2 : ℤ)
  | _ => False

/-- The word that the pass leaves at the place of a pending branch, from the word `w` that was
emitted. -/
theorem resolved_branch {s : ParserState} {label : Str} {e : ELF32} {w addr : Word}
    (hw : e.secText.data[s.elf.secText.data.length]? = some w)
    (htarget : e.target (s.pendingEntry .bType label).hash = addr) :
    ∃ w', (e.resolveInstruction (s.pendingEntry .bType label)).secText.data[
        s.elf.secText.data.length]? = some w' ∧
      (if s.OwnSlot then
        Rv32i.opcode w' = Rv32i.opcode w ∧ Rv32i.funct3 w' = Rv32i.funct3 w ∧
          Rv32i.rs1 w' = Rv32i.rs2 w ∧ Rv32i.rs2 w' = Rv32i.rs1 w ∧
          ∃ offset : Word, Rv32i.immB w' = bImmediate offset ∧
            (2 ^ 31 : ℤ) ∣ offset.toNat / 2 - (addr.toNat - (s.elf.secText.data.length - 1))
      else w' = w) := by
  rw [ELF32.text_resolveInstruction]
  split_ifs with hown
  · have hslot := (s.pendingEntry_own_iff .bType label).mpr hown
    obtain ⟨w', hw'⟩ : ∃ w', ELF32.patchedInsn .bType w addr
        (s.pendingEntry .bType label).pcInsnNumber = some w' := ⟨_, rfl⟩
    obtain ⟨hlt, -⟩ := List.getElem?_eq_some_iff.mp hw
    have hpatch : patch e.target e.secText.data (s.pendingEntry .bType label) =
        e.secText.data.set s.elf.secText.data.length w' := by
      have htype : (s.pendingEntry .bType label).insnType = .bType := rfl
      simp only [patch, hslot, hw, htarget, Option.getD_some, htype, hw']
    obtain ⟨ho, hf, h1, h2, hi⟩ := fields_of_patched_bType hw'
    refine ⟨w', by rw [hpatch, List.getElem?_set_self hlt], ho, hf, h1, h2, _, hi, ?_⟩
    have hdvd := dvd_resolvedEffectiveOffset addr (s.pendingEntry .bType label).pcInsnNumber
    have hpc := congrArg BitVec.toNat (s.pendingEntry_pc .bType label)
    have h1' : (1 : Word).toNat = 1 := rfl
    rw [BitVec.toNat_sub, hslot, h1'] at hpc
    omega
  · have hslot := mt (s.pendingEntry_own_iff .bType label).mp hown
    exact ⟨w, by rw [patch_getElem?_ne _ _ _ hslot, hw], rfl⟩

/-- A `beq` word of one register twice is the emitted one iff it shows the same displacement. -/
theorem eq_emitBType_iff {w imm offset : Word} {r : Reg} (ho : Rv32i.opcode w = 0x63)
    (hf : Rv32i.funct3 w = 0) (h1 : Rv32i.rs1 w = r) (h2 : Rv32i.rs2 w = r)
    (hi : Rv32i.immB w = bImmediate offset) :
    w = emitBTypeInstruction imm r.toUnsigned r.toUnsigned 0 0x63 ↔
      (2 ^ 12 : ℤ) ∣ imm.toNat / 2 - offset.toNat / 2 := by
  rw [← bImmediate_eq_iff, ← hi]
  constructor
  · rintro rfl
    exact (immB_emitBType imm r.toUnsigned r.toUnsigned 0 0x63).symm
  · intro himm
    apply Rv32i.ext_bType
    · rw [ho, opcode_emitBType]; rfl
    · rw [hf, funct3_emitBType]; rfl
    · rw [h1, rs1_emitBType]; simp [Reg.toUnsigned]
    · rw [h2, rs2_emitBType]; simp [Reg.toUnsigned]
    · rw [← himm, immB_emitBType]

/-- The two ways of a branch agree iff the word that the pass makes is the one emitted at once, and
that carries its registers only if they are equal. -/
theorem agree_branch_iff {rs1 rs2 : Reg} {symbol : Symbol} {addr₁ addr₂ : Word}
    {s₁ t₁ s₂ t₂ : ParserState} {e : ELF32} {w' : Word}
    (h : BothWays (.branch .beq rs1 rs2 symbol) .bType symbol.text addr₁ addr₂ s₁ t₁ s₂ t₂ e)
    (hw' : (e.resolveInstruction (s₂.pendingEntry .bType symbol.text)).secText.data[
      s₂.elf.secText.data.length]? = some w') :
    Agree (.branch .beq rs1 rs2 symbol) .bType symbol.text s₁ t₁ s₂ t₂ e ↔
      rs1 = rs2 ∧ w' = emitBTypeInstruction addr₁ rs1.toUnsigned rs2.toUnsigned 0 0x63 := by
  have htext₁ := (step_instruction h.step₁).text
  have htext₂ := (step_instruction h.step₂).text
  rw [emitted_branch_of_some h.known] at htext₁
  rw [emitted_branch_of_none (s₂.elf.labelExists_eq_false.mp h.unknown)] at htext₂
  -- the emitter puts its second parameter into the field of the other register
  have hcarries : (Instruction.branch .beq rs1 rs2 symbol).Carries
      (emitBTypeInstruction addr₁ rs1.toUnsigned rs2.toUnsigned 0 0x63) ↔ rs1 = rs2 := by
    simp only [Instruction.Carries, rs1_emitBType, rs2_emitBType, Reg.toUnsigned]
    simpa using Eq.symm
  unfold Agree
  rw [hw', htext₁, htext₂]
  constructor
  · rintro ⟨w, hw, -, hres, hc⟩
    cases List.append_cancel_left hw
    exact ⟨hcarries.mp hc, Option.some.inj hres⟩
  · rintro ⟨hreg, rfl⟩
    exact ⟨_, rfl, by simp, rfl, hcarries.mpr hreg⟩

/-- When the two ways of a branch agree. -/
theorem agree_branch_when {rs1 rs2 : Reg} {symbol : Symbol} {addr₁ addr₂ : Word}
    {s₁ t₁ s₂ t₂ : ParserState} {e : ELF32}
    (h : BothWays (.branch .beq rs1 rs2 symbol) .bType symbol.text addr₁ addr₂ s₁ t₁ s₂ t₂ e) :
    Agree (.branch .beq rs1 rs2 symbol) .bType symbol.text s₁ t₁ s₂ t₂ e ↔
      AgreesWhen (.branch .beq rs1 rs2 symbol) symbol.text addr₁ addr₂ s₂ := by
  have htext₂ := (step_instruction h.step₂).text
  rw [emitted_branch_of_none (s₂.elf.labelExists_eq_false.mp h.unknown)] at htext₂
  obtain ⟨w', hw', hfields⟩ := resolved_branch (e := e) (s := s₂)
    (by rw [h.emitted, htext₂, List.getElem?_concat_length]) h.found
  rw [agree_branch_iff h hw', AgreesWhen]
  refine and_congr_right ?_
  rintro rfl
  split_ifs at hfields ⊢ with hown
  · -- the pass has rewritten the word: both show their registers, and the displacements decide
    obtain ⟨ho, hf, h1, h2, offset, hi, hdvd⟩ := hfields
    rw [eq_emitBType_iff (by rw [ho, opcode_emitBType]; rfl)
      (by rw [hf, funct3_emitBType]; rfl) (by rw [h1, rs2_emitBType]; simp [Reg.toUnsigned])
      (by rw [h2, rs1_emitBType]; simp [Reg.toUnsigned]) hi]
    omega
  · -- the entry aims elsewhere, and the word still shows the hash
    rw [hfields, eq_emitBType_iff (by rw [opcode_emitBType]; rfl)
      (by rw [funct3_emitBType]; rfl) (by rw [rs1_emitBType]; simp [Reg.toUnsigned])
      (by rw [rs2_emitBType]; simp [Reg.toUnsigned]) (immB_emitBType _ _ _ _ _)]

/-- **When the two ways of a reference agree.** -/
theorem agree_iff (i : Instruction) (insnType : InstType) (label : Str) (addr₁ addr₂ : Word)
    (s₁ t₁ s₂ t₂ : ParserState) (e : ELF32)
    (h : BothWays i insnType label addr₁ addr₂ s₁ t₁ s₂ t₂ e) :
    Agree i insnType label s₁ t₁ s₂ t₂ e ↔ AgreesWhen i label addr₁ addr₂ s₂ := by
  have href := h.refers
  unfold Instruction.reference at href
  split at href
  · rename_i op rs1 rs2 symbol
    cases href
    cases op
    exact agree_branch_when h
  · -- a pending jump has no word
    refine iff_of_false ?_ id
    rintro ⟨w, -, hlen, -⟩
    rcases length_emitted_reference h.refers h.unknown with ⟨hb, -⟩ | ⟨-, hnil⟩
    · cases href
      cases hb
    · rw [(step_instruction h.step₂).text, hnil, List.append_nil] at hlen
      omega
  · cases href

/-- With one register twice and a recorded index that happens to fit, the two ways agree. -/
theorem agree_at_two : ∃ s₁ t₁ t₂ e,
    Agree (.branch .beq 5 5 (sym "a")) .bType (str "a") s₁ t₁ start t₂ e :=
  let s₁ := (((start.movAction 5 5).movAction 5 5).movAction 5 5).labelInstructionsAction (sym "a")
  let t₂ := start.branchAction .beq 5 5 (sym "a")
  let e := (t₂.labelInstructionsAction (sym "a")).elf
  ⟨s₁, s₁.branchAction .beq 5 5 (sym "a"), t₂, e,
    (agree_iff (.branch .beq 5 5 (sym "a")) .bType (str "a") 2 0 s₁ _ start t₂ e
      ⟨rfl, rfl, rfl, by decide, by decide, by decide, by decide⟩).mpr ⟨rfl, by decide⟩⟩

/-- In program `p` the parser comes to instruction `i`, which refers to `label`, in state `s`, and to
a block that `label` is attached to in state `v`. -/
structure Program.Site (p : Program) (i : Instruction) (label : Symbol) (s v : ParserState) :
    Prop where
  refers : ∃ insnType, i.reference = some (insnType, label.text)
  reference : ∃ pre post, p.reductions = pre ++ .instruction i :: post ∧
    run step start pre = .ok s
  block : ∃ ss b ss', p.statements = ss ++ .labelInstructions label b :: ss' ∧
    run step start (reductionsOf ss) = .ok v

/-- `a: addi x5, x5, 1` and `b: beq x5, x6, a`. -/
def behind : Program :=
  program (.labelInstructions (sym "a") (block (.iType .addi 5 5 (.imm 1)) []))
    [.labelInstructions (sym "b") (block (.branch .beq 5 6 (sym "a")) [])]

/-- `a: addi x5, x5, 1` with `beq x5, x6, a` in the same block. -/
def inside : Program :=
  program (.labelInstructions (sym "a")
    (block (.iType .addi 5 5 (.imm 1)) [.branch .beq 5 6 (sym "a")])) []

/-- One instruction behind its target, the branch of `behind` knows its label and that of `inside`
does not; they end up as different words. -/
theorem behind_inside_differ : ¬ ∀ (p₁ p₂ : Program) i label s₁ v₁ s₂ v₂,
    p₁.Site i label s₁ v₁ → s₁.elf.labelExists label.text = true →
    p₂.Site i label s₂ v₂ → s₂.elf.labelExists label.text = false →
    (v₁.elf.secText.data.length : ℤ) - s₁.elf.secText.data.length =
      v₂.elf.secText.data.length - s₂.elf.secText.data.length →
    p₁.text[s₁.elf.secText.data.length]? = p₂.text[s₂.elf.secText.data.length]? := by
  intro h
  have hword := h behind inside (.branch .beq 5 6 (sym "a")) (sym "a") _ start _ start
    ⟨⟨_, rfl⟩, ⟨behind.reductions.take 2, _, rfl, rfl⟩, ⟨[], _, _, rfl, rfl⟩⟩ (by decide)
    ⟨⟨_, rfl⟩, ⟨inside.reductions.take 1, _, rfl, rfl⟩, ⟨[], _, _, rfl, rfl⟩⟩ (by decide)
    (by decide)
  revert hword
  decide

/-! ## Undefined labels -/

/-- Some statement attaches the label to instructions. -/
def Program.DefinesCode (p : Program) (label : Str) : Prop :=
  ∃ l b, Statement.labelInstructions l b ∈ p.statements ∧ l.text = label

/-- Some statement attaches the label to instructions or to a directive. -/
def Program.Defines (p : Program) (label : Str) : Prop :=
  p.DefinesCode label ∨ ∃ l d, Statement.labelDirective l d ∈ p.statements ∧ l.text = label

/-- References to undefined labels are left for the linker, and the others are resolved: the round of
the pass for a pending reference does nothing if no statement defines its label, and uses the label's
address if the label is that of a block. -/
structure Program.LinkerSafe (p : Program) (u : ParserState) : Prop where
  kept : ∀ pre i insnType label s, p.Pending pre i insnType label s u → ¬ p.Defines label →
    ((u.passUpTo s.elf.unresolvedInstructions).resolveInstruction
        (s.pendingEntry insnType label)).secText.data =
      (u.passUpTo s.elf.unresolvedInstructions).secText.data
  resolved : ∀ pre i insnType label s, p.Pending pre i insnType label s u → p.DefinesCode label →
    u.elf.resolvedLabels.lookup label =
      some ((u.passUpTo s.elf.unresolvedInstructions).labelToAddrAt
        (s.pendingEntry insnType label).hash).2

/-- The slot is outside the section, or the word there already shows what the fixup of an entry of
this type puts in, with the index found for the label's hash (zero if none is). -/
def Harmless (u : ParserState) (e : ELF32) (entry : UnresolvedInst32) : Prop :=
  e.secText.data.length ≤ entry.insnNumber.toNat ∨
    ∃ w, e.secText.data[entry.insnNumber.toNat]? = some w ∧
      Shows entry.insnType w
        (ELF32.resolvedEffectiveOffset (u.elf.target entry.hash) entry.pcInsnNumber)

/-- A round does nothing iff its slot is outside or its word already shows what it would put in. -/
theorem patch_eq_self_iff (target : Word → Word) (text : List Word) (entry : UnresolvedInst32)
    (ht : entry.insnType = .bType ∨ entry.insnType = .jType) :
    patch target text entry = text ↔
      text.length ≤ entry.insnNumber.toNat ∨
        ∃ w, text[entry.insnNumber.toNat]? = some w ∧
          Shows entry.insnType w
            (ELF32.resolvedEffectiveOffset (target entry.hash) entry.pcInsnNumber) := by
  by_cases hout : text.length ≤ entry.insnNumber.toNat
  · refine iff_of_true ?_ (Or.inl hout)
    unfold patch
    split
    · exact List.set_eq_of_length_le hout
    · rfl
  · obtain ⟨w, hw⟩ : ∃ w, text[entry.insnNumber.toNat]? = some w :=
      ⟨_, List.getElem?_eq_getElem (by omega)⟩
    obtain ⟨w', hw'⟩ : ∃ w', ELF32.patchedInsn entry.insnType w (target entry.hash)
        entry.pcInsnNumber = some w' := by
      rcases ht with ht | ht <;> rw [ht] <;> exact ⟨_, rfl⟩
    have hpatch : patch target text entry = text.set entry.insnNumber.toNat w' := by
      simp only [patch, hw, Option.getD_some, hw']
    simp only [hpatch, hw, Option.some.injEq, exists_eq_left', hout, false_or,
      ← patchedInsn_eq_self_iff ht, hw']
    constructor
    · intro hset
      have hget := congrArg (fun l : List Word => l[entry.insnNumber.toNat]?) hset
      simpa [List.getElem?_set_self (show entry.insnNumber.toNat < text.length by omega), hw]
        using hget
    · rintro rfl
      obtain ⟨hlt, hget⟩ := List.getElem?_eq_some_iff.mp hw
      rw [← hget]
      exact List.set_getElem_self hlt

/-- The type of a reference's fixup. -/
theorem Program.Pending.insnType_eq {p : Program} {pre : List Reduction} {i : Instruction}
    {insnType : InstType} {label : Str} {s u : ParserState}
    (h : p.Pending pre i insnType label s u) : insnType = .bType ∨ insnType = .jType :=
  (length_emitted_reference h.refers h.unknown).imp And.left And.left

/-- A label that is attached to a block has an address at the end. -/
theorem Program.DefinesCode.labelExists {p : Program} {label : Str} (h : p.DefinesCode label)
    {u : ParserState} (hu : p.parse = .ok u) : u.elf.labelExists label = true := by
  obtain ⟨l, b, hmem, rfl⟩ := h
  have hrun : run step start p.reductions = .ok u := hu
  refine (labelExists_iff hrun _).mpr ⟨.labelInstructions l, ?_, rfl⟩
  rw [Program.reductions, reductionsOf, List.mem_flatMap]
  exact ⟨_, hmem, by simp [Statement.reductions]⟩

/-- **When undefined labels are left to the linker and defined ones resolved.** -/
theorem Program.linkerSafe_iff (p : Program) (u : ParserState) (hu : p.parse = .ok u) :
    p.LinkerSafe u ↔
      (∀ pre i insnType label s, p.Pending pre i insnType label s u → ¬ p.Defines label →
        Harmless u (u.passUpTo s.elf.unresolvedInstructions) (s.pendingEntry insnType label)) ∧
      ∀ pre i insnType label s, p.Pending pre i insnType label s u → p.DefinesCode label →
        ∀ m, lastNamesake p.reductions (hasher label) = some m →
          u.elf.resolvedLabels.lookup m = u.elf.resolvedLabels.lookup label := by
  have hkept : ∀ pre i insnType label s, p.Pending pre i insnType label s u →
      (((u.passUpTo s.elf.unresolvedInstructions).resolveInstruction
          (s.pendingEntry insnType label)).secText.data =
        (u.passUpTo s.elf.unresolvedInstructions).secText.data ↔
      Harmless u (u.passUpTo s.elf.unresolvedInstructions) (s.pendingEntry insnType label)) := by
    intro pre i insnType label s hp
    have htarget : (u.passUpTo s.elf.unresolvedInstructions).target = u.elf.target :=
      (u.elf.foldl_resolveInstruction _).2
    rw [ELF32.text_resolveInstruction, htarget]
    exact patch_eq_self_iff _ _ _ hp.insnType_eq
  have hresolved : ∀ pre i insnType label s, p.Pending pre i insnType label s u →
      p.DefinesCode label →
      (u.elf.resolvedLabels.lookup label =
          some ((u.passUpTo s.elf.unresolvedInstructions).labelToAddrAt
            (s.pendingEntry insnType label).hash).2 ↔
        ∀ m, lastNamesake p.reductions (hasher label) = some m →
          u.elf.resolvedLabels.lookup m = u.elf.resolvedLabels.lookup label) := by
    intro pre i insnType label s hp hdef
    obtain ⟨m, addr, hm, haddr, htarget⟩ := hp.target_eq (hdef.labelExists hu)
    rw [htarget]
    simp only [hm, Option.some.injEq, forall_eq', haddr]
    exact eq_comm
  constructor
  · intro h
    constructor
    · intro pre i insnType label s hp hundef
      exact (hkept pre i insnType label s hp).mp (h.kept pre i insnType label s hp hundef)
    · intro pre i insnType label s hp hdef
      exact (hresolved pre i insnType label s hp hdef).mp (h.resolved pre i insnType label s hp hdef)
  · rintro ⟨hharmless, hnamesake⟩
    constructor
    · intro pre i insnType label s hp hundef
      exact (hkept pre i insnType label s hp).mpr (hharmless pre i insnType label s hp hundef)
    · intro pre i insnType label s hp hdef
      exact (hresolved pre i insnType label s hp hdef).mpr (hnamesake pre i insnType label s hp hdef)

/-- All references of `forward` are resolved. -/
theorem forward_linkerSafe : ∃ u, forward.parse = .ok u ∧ forward.LinkerSafe u := by
  refine ⟨_, rfl, (forward.linkerSafe_iff _ rfl).mpr ⟨fun pre i insnType label s hp hundef => ?_,
    fun pre i insnType label s hp _ m hm => ?_⟩⟩
  · obtain ⟨-, rfl, -⟩ := forward_pending hp
    exact absurd (Or.inl ⟨sym "b", block (.psuedo .ret) [], by simp [forward, program], rfl⟩) hundef
  · obtain ⟨-, rfl, -⟩ := forward_pending hp
    have hm' : some m = some (str "b") := hm.symm.trans (by decide)
    cases hm'
    rfl

/-- `a: beq x5, x6, nowhere`. -/
def astray : Program :=
  program (.labelInstructions (sym "a") (block (.branch .beq 5 6 (sym "nowhere")) [])) []

/-- The branch of `astray` is rewritten although no statement defines its label. -/
theorem astray_rewritten : ¬ ∀ (p : Program) pre i insnType label s u,
    p.Pending pre i insnType label s u → ¬ p.Defines label →
    u.elf.resolveUnresolvedInstructions.secText.data[(s.pendingEntry insnType
        label).insnNumber.toNat]? =
      u.elf.secText.data[(s.pendingEntry insnType label).insnNumber.toNat]? := by
  intro h
  have hundef : ¬ astray.Defines (str "nowhere") := by
    rintro (⟨l, b, hmem, hl⟩ | ⟨l, d, hmem, -⟩)
    · simp only [astray, program, List.mem_singleton] at hmem
      cases hmem
      revert hl
      decide
    · simp [astray, program] at hmem
  have hkept := h astray [] (.branch .beq 5 6 (sym "nowhere")) .bType (str "nowhere") start _
    ⟨⟨_, rfl⟩, rfl, rfl, by decide, rfl⟩ hundef
  revert hkept
  decide

end RiscvAssembler
