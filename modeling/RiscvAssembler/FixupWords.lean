import RiscvAssembler.ControlFlow
import RiscvAssembler.Lib.Overwrites

/-!
# The fixup pass on any object

The pass as arithmetic on words, for any contents of `.text` and any entries, whether or not a parser
could have left them there.

* `displacements_iff`: when the words at the slots show the displacements of their entries. The pass
  multiplies a distance by four, halves it, and the encoder takes the result for a number of bytes.
* `rewriteAt_kinds`: what an entry does to the word at an index: nothing, or it puts in a branch
  displacement and swaps two registers, or it sets the upper 20 bits.
* `onlyImmediates_iff`: when the fixups change nothing but immediates, so that a second pass changes
  nothing.
-/

namespace RiscvAssembler

open BitFields Overwrites

/-! ## Displacements -/

namespace ELF32

variable (e : ELF32)

/-- The byte displacement of an entry, four times the distance from its `pc` to the index found for its
hash. Indices are counted in 32 bits, and the one in front of the first instruction is `-1`. -/
def displacement (entry : UnresolvedInst32) : ℤ :=
  4 * (e.target entry.hash - entry.pcInsnNumber).toInt

/-- The displacement that a word shows as a branch, or as a jump. -/
def shown (insnType : InstType) (w : Word) : ℤ :=
  match insnType with
  | .bType => (Rv32i.immB w).toInt
  | .jType => (Rv32i.immJ w).toInt
  | _ => 0

/-- The entries are branches and jumps, each with a slot of its own in `.text` and a hash that has an
address. -/
structure Separate : Prop where
  types : ∀ entry ∈ e.unresolvedInstructions, entry.insnType = .bType ∨ entry.insnType = .jType
  slots : (e.unresolvedInstructions.map UnresolvedInst32.insnNumber).Nodup
  inText : ∀ entry ∈ e.unresolvedInstructions, entry.insnNumber.toNat < e.secText.data.length
  known : ∀ entry ∈ e.unresolvedInstructions, ∃ addr, e.labelToAddr.lookup entry.hash = some addr

/-- In whatever order the pass takes the entries, the word at every slot shows the displacement of its
entry, if that fits the format. -/
def ShowsDisplacements : Prop :=
  ∀ entries : List UnresolvedInst32, entries.Perm e.unresolvedInstructions → ∀ entry ∈ entries,
    DisplacementRange entry.insnType (e.displacement entry) →
      ∃ w, ({ e with unresolvedInstructions := entries } : ELF32).resolveUnresolvedInstructions.secText.data[
        entry.insnNumber.toNat]? = some w ∧ shown entry.insnType w = e.displacement entry

end ELF32

/-- Entries that aim elsewhere do nothing to a word. -/
theorem rewritten_of_ne (target : Word → Word) {k : ℕ} {entries : List UnresolvedInst32}
    (h : ∀ entry ∈ entries, entry.insnNumber.toNat ≠ k) (w : Word) :
    rewritten target entries k w = w :=
  foldl_keeps (o := id) (fun entry he w => rewriteAt_of_ne target (h entry he) w) w

/-- If no two entries have one slot, the word at a slot is what its entry makes of it. -/
theorem foldl_patch_of_nodup (target : Word → Word) {entries : List UnresolvedInst32}
    (h : (entries.map UnresolvedInst32.insnNumber).Nodup) {entry : UnresolvedInst32}
    (he : entry ∈ entries) (text : List Word) :
    (entries.foldl (patch target) text)[entry.insnNumber.toNat]? =
      text[entry.insnNumber.toNat]?.map fun w => rewriteAt target entry.insnNumber.toNat w entry := by
  obtain ⟨pre, post, rfl⟩ := List.append_of_mem he
  rw [List.map_append, List.map_cons, List.nodup_append] at h
  obtain ⟨-, hpost, hpre⟩ := h
  have hbefore : ∀ other ∈ pre, other.insnNumber.toNat ≠ entry.insnNumber.toNat := by
    intro other hother heq
    exact hpre _ (List.mem_map_of_mem hother) _ List.mem_cons_self (BitVec.eq_of_toNat_eq heq)
  have hafter : ∀ other ∈ post, other.insnNumber.toNat ≠ entry.insnNumber.toNat := by
    intro other hother heq
    apply (List.nodup_cons.mp hpost).1
    rw [← BitVec.eq_of_toNat_eq heq]
    exact List.mem_map_of_mem hother
  rw [foldl_patch_getElem?]
  congr 1
  funext w
  unfold rewritten
  rw [List.foldl_append, List.foldl_cons]
  show rewritten target post _ (rewriteAt target _ (rewritten target pre _ w) entry) = _
  rw [rewritten_of_ne target hbefore, rewritten_of_ne target hafter]

namespace ELF32

/-- A fixup of a displacement that fits shows it only if there is no distance: what it puts in is half
of it. -/
theorem shown_patched_iff {insnType : InstType} {w w' resolved pc : Word}
    (ht : insnType = .bType ∨ insnType = .jType) (hw' : patchedInsn insnType w resolved pc = some w')
    (hrange : DisplacementRange insnType (4 * (resolved - pc).toInt)) :
    shown insnType w' = 4 * (resolved - pc).toInt ↔ resolved = pc := by
  have hoffset := toNat_resolvedEffectiveOffset resolved pc
  have hlt := (resolved - pc).isLt
  have hcond := BitVec.toInt_eq_toNat_cond (resolved - pc)
  have hzero : (resolved - pc).toInt = 0 ↔ resolved = pc := by
    have hzero : (0 : Word).toInt = 0 := BitVec.toInt_zero
    rw [← hzero, BitVec.toInt_inj]
    constructor
    · intro hdiff
      bv_omega
    · intro heq
      bv_omega
  rw [← hzero]
  rcases ht with rfl | rfl
  · have himm := (fields_of_patched_bType hw').2.2.2.2
    unfold shown
    rw [himm, toInt_bImmediate_eq_iff _ hrange]
    unfold DisplacementRange at hrange
    split_ifs at hcond <;> omega
  · have himm := (fields_of_patched_jType hw').2.2
    unfold shown
    rw [himm, toInt_jImmediate_eq_iff _ hrange]
    unfold DisplacementRange at hrange
    split_ifs at hcond <;> omega

/-- **When the pass gets the displacements right**: when there are none. -/
theorem displacements_iff (e : ELF32) (h : e.Separate) :
    e.ShowsDisplacements ↔ ∀ entry ∈ e.unresolvedInstructions,
      DisplacementRange entry.insnType (e.displacement entry) →
        e.target entry.hash = entry.pcInsnNumber := by
  -- the word of one entry, in one order of the entries
  have hword : ∀ entries : List UnresolvedInst32, entries.Perm e.unresolvedInstructions →
      ∀ entry ∈ entries, DisplacementRange entry.insnType (e.displacement entry) →
        ((∃ w, ({ e with unresolvedInstructions := entries } :
            ELF32).resolveUnresolvedInstructions.secText.data[entry.insnNumber.toNat]? = some w ∧
              shown entry.insnType w = e.displacement entry) ↔
          e.target entry.hash = entry.pcInsnNumber) := by
    intro entries hperm entry he hrange
    have hmem : entry ∈ e.unresolvedInstructions := hperm.mem_iff.mp he
    have hnodup : (entries.map UnresolvedInst32.insnNumber).Nodup :=
      (hperm.map _).nodup_iff.mpr h.slots
    obtain ⟨w, hw⟩ : ∃ w, e.secText.data[entry.insnNumber.toNat]? = some w :=
      ⟨_, List.getElem?_eq_getElem (h.inText entry hmem)⟩
    obtain ⟨w', hw'⟩ : ∃ w', patchedInsn entry.insnType w (e.target entry.hash)
        entry.pcInsnNumber = some w' := by
      rcases h.types entry hmem with ht | ht
      · rw [ht]; exact ⟨_, rfl⟩
      · rw [ht]; exact ⟨_, rfl⟩
    have hfinal : ({ e with unresolvedInstructions := entries } :
        ELF32).resolveUnresolvedInstructions.secText.data[entry.insnNumber.toNat]? = some w' := by
      rw [text_resolveUnresolvedInstructions]
      show (entries.foldl (patch e.target) e.secText.data)[entry.insnNumber.toNat]? = some w'
      rw [foldl_patch_of_nodup e.target hnodup he, hw, Option.map_some, rewriteAt, if_pos rfl, hw',
        Option.getD_some]
    rw [hfinal, ← shown_patched_iff (h.types entry hmem) hw' hrange]
    simp only [Option.some.injEq, exists_eq_left']
    exact Iff.rfl
  constructor
  · intro hshows entry he hrange
    exact (hword _ (List.Perm.refl _) entry he hrange).mp
      (hshows _ (List.Perm.refl _) entry he hrange)
  · intro hzero entries hperm entry he hrange
    exact (hword entries hperm entry he hrange).mpr (hzero entry (hperm.mem_iff.mp he) hrange)

/-- An object with one branch word, and an entry for it whose `pc` is the word's own index. -/
def oneBranch (addr : Word) : ELF32 :=
  { build [.addToText 0x63, .addToUnresolvedInsns 0 .bType 7 0] with
    labelToAddr := (∅ : AList fun _ : Word => Word).insert 7 addr }

theorem separate_oneBranch (addr : Word) : (oneBranch addr).Separate := by
  have hone : (oneBranch addr).unresolvedInstructions = [⟨0, 0, .bType, 7⟩] := rfl
  have hlen : (oneBranch addr).secText.data.length = 1 := rfl
  have hlookup : (oneBranch addr).labelToAddr.lookup 7 = some addr := AList.lookup_insert _
  constructor <;> rw [hone]
  case types => simp
  case slots => simp
  case inText => simp [hlen]
  case known => simpa using ⟨addr, hlookup⟩

/-- A branch to itself. -/
theorem oneBranch_shows : (oneBranch 0).Separate ∧ (oneBranch 0).ShowsDisplacements := by
  refine ⟨separate_oneBranch 0, (displacements_iff _ (separate_oneBranch 0)).mpr ?_⟩
  intro entry he _
  have hone : (oneBranch 0).unresolvedInstructions = [⟨0, 0, .bType, 7⟩] := rfl
  rw [hone] at he
  rw [List.mem_singleton.mp he]
  rfl

/-- A branch to the next instruction is given a displacement of two bytes. -/
theorem oneBranch_halved : ¬ ∀ e : ELF32, e.Separate → e.ShowsDisplacements := by
  intro h
  have htarget := (displacements_iff _ (separate_oneBranch 1)).mp
    (h (oneBranch 1) (separate_oneBranch 1)) ⟨0, 0, .bType, 7⟩ List.mem_cons_self
    ⟨by decide, by decide⟩
  revert htarget
  decide

end ELF32

/-! ## What an entry does to a word -/

section

variable (target : Word → Word) (k : ℕ) (entry : UnresolvedInst32)

/-- The entry puts a branch displacement into the word at index `k`, and swaps its registers. -/
structure BranchFix : Prop where
  opcode : Keeps (rewriteAt target k) Rv32i.opcode entry
  funct3 : Keeps (rewriteAt target k) Rv32i.funct3 entry
  rs1 : ∀ w, Rv32i.rs1 (rewriteAt target k w entry) = Rv32i.rs2 w
  rs2 : ∀ w, Rv32i.rs2 (rewriteAt target k w entry) = Rv32i.rs1 w
  immB : Sets (rewriteAt target k) Rv32i.immB entry
  rd : Sets (rewriteAt target k) Rv32i.rd entry
  immU : Respects (rewriteAt target k) Rv32i.immU entry

/-- The entry sets the upper 20 bits of the word at index `k`. -/
structure UpperFix : Prop where
  opcode : Keeps (rewriteAt target k) Rv32i.opcode entry
  rd : Keeps (rewriteAt target k) Rv32i.rd entry
  immU : Sets (rewriteAt target k) Rv32i.immU entry

variable {target k entry}

/-- The word at the entry's own index is the patched one, for a type of entry that is patched. -/
theorem patchedInsn_eq_rewriteAt (hk : entry.insnNumber.toNat = k)
    (ht : entry.insnType = .bType ∨ entry.insnType = .jType) (w : Word) :
    ELF32.patchedInsn entry.insnType w (target entry.hash) entry.pcInsnNumber =
      some (rewriteAt target k w entry) := by
  unfold rewriteAt
  rw [if_pos hk]
  rcases ht with ht | ht
  · rw [ht]
    rfl
  · rw [ht]
    rfl

theorem branchFix (hk : entry.insnNumber.toNat = k) (ht : entry.insnType = .bType) :
    BranchFix target k entry := by
  have hpatched : ∀ w, ELF32.patchedInsn .bType w (target entry.hash) entry.pcInsnNumber =
      some (rewriteAt target k w entry) := by
    intro w
    rw [← ht]
    exact patchedInsn_eq_rewriteAt hk (Or.inl ht) w
  have hfields := fun w => fields_of_patched_bType (hpatched w)
  have hword : ∀ w, rewriteAt target k w entry = _ := fun w => (Option.some.inj (hpatched w)).symm
  constructor
  case opcode => exact fun w => (hfields w).1
  case funct3 => exact fun w => (hfields w).2.1
  case rs1 => exact fun w => (hfields w).2.2.1
  case rs2 => exact fun w => (hfields w).2.2.2.1
  case immB =>
    intro w w'
    rw [(hfields w).2.2.2.2, (hfields w').2.2.2.2]
  case rd =>
    intro w w'
    rw [hword, hword]
    exact rd_emitBType_congr _ _ _ _ _ _ _ _ _
  case immU =>
    intro w w' heq
    obtain ⟨-, hf, h1, h2, -⟩ := Btype32.fields_deserialize w
    obtain ⟨-, hf', h1', h2', -⟩ := Btype32.fields_deserialize w'
    obtain ⟨hfunct3, hrs1, hrs2⟩ := Rv32i.fields_of_immU heq
    rw [hword, hword, ← hf, ← h1, ← h2, ← hf', ← h1', ← h2', hfunct3, hrs1, hrs2]
    exact immU_emitBType_congr _ _ _ _ _ _

theorem upperFix (hk : entry.insnNumber.toNat = k)
    (ht : entry.insnType = .uType ∨ entry.insnType = .jType) : UpperFix target k entry := by
  rcases ht with ht | ht
  · have hword : ∀ w, rewriteAt target k w entry = emitUTypeInstruction
        (ELF32.resolvedEffectiveOffset (target entry.hash) entry.pcInsnNumber)
        ((Utype32.deserialize w).rd.setWidth 32) ((Utype32.deserialize w).opcode.setWidth 32) := by
      intro w
      unfold rewriteAt
      rw [if_pos hk, ht]
      rfl
    have hfields := fun w => fields_emitUType
      (ELF32.resolvedEffectiveOffset (target entry.hash) entry.pcInsnNumber)
      ((Utype32.deserialize w).rd.setWidth 32) ((Utype32.deserialize w).opcode.setWidth 32)
    constructor
    case opcode =>
      intro w
      rw [hword, (hfields w).1, (Utype32.fields_deserialize w).1]
      simp
    case rd =>
      intro w
      rw [hword, (hfields w).2.1, (Utype32.fields_deserialize w).2]
      simp
    case immU =>
      intro w w'
      rw [hword, hword, (hfields w).2.2, (hfields w').2.2]
  · have hpatched : ∀ w, ELF32.patchedInsn .jType w (target entry.hash) entry.pcInsnNumber =
        some (rewriteAt target k w entry) := by
      intro w
      rw [← ht]
      exact patchedInsn_eq_rewriteAt hk (Or.inr ht) w
    have hfields := fun w => fields_of_patched_jType (hpatched w)
    have hword : ∀ w, rewriteAt target k w entry = _ := fun w => (Option.some.inj (hpatched w)).symm
    constructor
    case opcode => exact fun w => (hfields w).1
    case rd => exact fun w => (hfields w).2.1
    case immU =>
      intro w w'
      rw [hword, hword]
      exact immU_emitJType_congr _ _ _ _ _

/-- **What an entry does to the word at an index.** -/
theorem rewriteAt_kinds (target : Word → Word) (k : ℕ) (entry : UnresolvedInst32) :
    Keeps (rewriteAt target k) id entry ∨
      (entry.insnNumber.toNat = k ∧ entry.insnType = .bType ∧ BranchFix target k entry) ∨
      UpperFix target k entry := by
  by_cases hk : entry.insnNumber.toNat = k
  · have hidle : (∀ w, ELF32.patchedInsn entry.insnType w (target entry.hash)
        entry.pcInsnNumber = none) → Keeps (rewriteAt target k) id entry := by
      intro hnone w
      show rewriteAt target k w entry = w
      unfold rewriteAt
      rw [if_pos hk, hnone, Option.getD_none]
    cases ht : entry.insnType with
    | bType => exact Or.inr (Or.inl ⟨hk, rfl, branchFix hk ht⟩)
    | uType => exact Or.inr (Or.inr (upperFix hk (Or.inl ht)))
    | jType => exact Or.inr (Or.inr (upperFix hk (Or.inr ht)))
    | rType => exact Or.inl (hidle fun w => by rw [ht]; rfl)
    | iType => exact Or.inl (hidle fun w => by rw [ht]; rfl)
    | sType => exact Or.inl (hidle fun w => by rw [ht]; rfl)
  · exact Or.inl fun w => rewriteAt_of_ne target hk w

/-- Every branch entry for index `k` comes to a word with two equal registers, if the word is `w` at
first. -/
def Balanced (target : Word → Word) (k : ℕ) (entries : List UnresolvedInst32) (w : Word) : Prop :=
  ∀ pre entry post, entries = pre ++ entry :: post → entry.insnNumber.toNat = k →
    entry.insnType = .bType →
      Rv32i.rs1 (rewritten target pre k w) = Rv32i.rs2 (rewritten target pre k w)

theorem opcode_rewritten (entries : List UnresolvedInst32) (w : Word) :
    Rv32i.opcode (rewritten target entries k w) = Rv32i.opcode w := by
  apply foldl_keeps
  intro entry _
  rcases rewriteAt_kinds target k entry with hidle | ⟨-, -, hbranch⟩ | hupper
  · exact fun w => congrArg Rv32i.opcode (hidle w)
  · exact hbranch.opcode
  · exact hupper.opcode

/-- Without entries that set the upper bits, a word with two equal registers keeps all but its
displacement. -/
theorem fields_rewritten {entries : List UnresolvedInst32}
    (h : ∀ entry ∈ entries, ¬ UpperFix target k entry) {w : Word} (hw : Rv32i.rs1 w = Rv32i.rs2 w) :
    Rv32i.funct3 (rewritten target entries k w) = Rv32i.funct3 w ∧
      Rv32i.rs1 (rewritten target entries k w) = Rv32i.rs1 w ∧
      Rv32i.rs2 (rewritten target entries k w) = Rv32i.rs2 w := by
  induction entries generalizing w with
  | nil => exact ⟨rfl, rfl, rfl⟩
  | cons entry entries ih =>
      have hrest := fun e he => h e (List.mem_cons_of_mem _ he)
      rw [rewritten_cons]
      rcases rewriteAt_kinds target k entry with hidle | ⟨-, -, hbranch⟩ | hupper
      · have hword : rewriteAt target k w entry = w := hidle w
        rw [hword]
        exact ih hrest hw
      · obtain ⟨hf, h1, h2⟩ := ih hrest (w := rewriteAt target k w entry)
          (by rw [hbranch.rs1, hbranch.rs2, hw])
        rw [hf, h1, h2, hbranch.funct3, hbranch.rs1, hbranch.rs2]
        exact ⟨rfl, hw.symm, hw⟩
      · exact absurd hupper (h entry List.mem_cons_self)

/-- Without entries that set the upper bits, balanced entries do nothing or come to a word with two equal
registers. -/
theorem Balanced.idle_or_same {entries : List UnresolvedInst32} {w : Word}
    (hb : Balanced target k entries w) (h : ∀ entry ∈ entries, ¬ UpperFix target k entry) :
    (∀ entry ∈ entries, Keeps (rewriteAt target k) id entry) ∨ Rv32i.rs1 w = Rv32i.rs2 w := by
  induction entries with
  | nil => exact Or.inl (by simp)
  | cons entry entries ih =>
      rcases rewriteAt_kinds target k entry with hidle | ⟨hk, ht, -⟩ | hupper
      · have hword : rewriteAt target k w entry = w := hidle w
        have hbrest : Balanced target k entries w := by
          intro pre e post hsplit hek het
          have hround := hb (entry :: pre) e post (by rw [hsplit, List.cons_append]) hek het
          rwa [rewritten_cons, hword] at hround
        rcases ih hbrest fun e he => h e (List.mem_cons_of_mem _ he) with hrest | hsame
        · exact Or.inl (List.forall_mem_cons.mpr ⟨hidle, hrest⟩)
        · exact Or.inr hsame
      · exact Or.inr (hb [] entry entries rfl hk ht)
      · exact absurd hupper (h entry List.mem_cons_self)

/-- **A second pass over one word** changes nothing, if the branch entries for it are balanced. -/
theorem Balanced.rewritten_rewritten {entries : List UnresolvedInst32} {w : Word}
    (hb : Balanced target k entries w) :
    rewritten target entries k (rewritten target entries k w) = rewritten target entries k w := by
  by_cases hupper : ∃ entry ∈ entries, UpperFix target k entry
  · -- the upper bits are set in the first pass already, whatever the registers were
    obtain ⟨entry, he, hfix⟩ := hupper
    have hrd : ∀ b ∈ entries, Keeps (rewriteAt target k) Rv32i.rd b ∨
        Sets (rewriteAt target k) Rv32i.rd b := by
      intro b _
      rcases rewriteAt_kinds target k b with hidle | ⟨-, -, hbranch⟩ | hup
      · exact Or.inl fun w => congrArg Rv32i.rd (hidle w)
      · exact Or.inr hbranch.rd
      · exact Or.inl hup.rd
    have himm : ∀ b ∈ entries, Respects (rewriteAt target k) Rv32i.immU b := by
      intro b _
      rcases rewriteAt_kinds target k b with hidle | ⟨-, -, hbranch⟩ | hup
      · exact Keeps.respects fun w => congrArg Rv32i.immU (hidle w)
      · exact hbranch.immU
      · exact hup.immU.respects
    apply Rv32i.ext_uType
    · rw [opcode_rewritten]
    · exact observe_foldl_foldl hrd w
    · exact foldl_sets himm he hfix.immU _ _
  · push Not at hupper
    rcases hb.idle_or_same hupper with hidle | hsame
    · exact foldl_keeps (o := id) hidle _
    · have himm : ∀ b ∈ entries, Keeps (rewriteAt target k) Rv32i.immB b ∨
          Sets (rewriteAt target k) Rv32i.immB b := by
        intro b hb
        rcases rewriteAt_kinds target k b with hidle | ⟨-, -, hbranch⟩ | hup
        · exact Or.inl fun w => congrArg Rv32i.immB (hidle w)
        · exact Or.inr hbranch.immB
        · exact absurd hup (hupper b hb)
      obtain ⟨hf, h1, h2⟩ := fields_rewritten hupper hsame
      obtain ⟨hf', h1', h2'⟩ := fields_rewritten hupper (w := rewritten target entries k w)
        (by rw [h1, h2, hsame])
      apply Rv32i.ext_bType
      · rw [opcode_rewritten]
      · exact hf'
      · exact h1'
      · exact h2'
      · exact observe_foldl_foldl himm w

end

/-! ## The object after the pass -/

namespace ELF32

/-- The addresses of hashes after a round: a hash that has none gets zero. -/
def entered (labelToAddr : AList fun _ : Word => Word) (entry : UnresolvedInst32) :
    AList fun _ : Word => Word :=
  if (entry.insnType = .bType ∨ entry.insnType = .uType ∨ entry.insnType = .jType) ∧
      labelToAddr.lookup entry.hash = none then
    labelToAddr.insert entry.hash 0
  else labelToAddr

theorem patchedInsn_eq_none_iff {insnType : InstType} {w resolved pc : Word} :
    patchedInsn insnType w resolved pc = none ↔
      ¬ (insnType = .bType ∨ insnType = .uType ∨ insnType = .jType) := by
  cases insnType <;> simp [patchedInsn]

/-- A round changes words and addresses of hashes, and nothing else. -/
theorem resolveInstruction_eq (e : ELF32) (entry : UnresolvedInst32) :
    e.resolveInstruction entry =
      { e with
        secText := { e.secText with data := patch e.target e.secText.data entry }
        labelToAddr := entered e.labelToAddr entry } := by
  have htext := e.text_resolveInstruction entry
  unfold resolveInstruction at htext ⊢
  unfold entered
  simp only at htext ⊢
  cases hp : patchedInsn entry.insnType ((e.secText.getEntry entry.insnNumber.toNat).getD 0)
      (e.labelToAddrAt entry.hash).2 entry.pcInsnNumber with
  | none =>
      rw [hp] at htext
      simp only at htext ⊢
      rw [if_neg fun h => patchedInsn_eq_none_iff.mp hp h.1, ← htext]
  | some insn =>
      have htype : entry.insnType = .bType ∨ entry.insnType = .uType ∨ entry.insnType = .jType := by
        by_contra hnone
        rw [patchedInsn_eq_none_iff.mpr hnone] at hp
        cases hp
      rw [hp] at htext
      simp only [Text.data_updateEntry] at htext ⊢
      have hsec : (e.labelToAddrAt entry.hash).1.secText.updateEntry entry.insnNumber.toNat insn =
          { e.secText with data := patch e.target e.secText.data entry } := by
        rw [← htext, ← Text.data_updateEntry, secText_labelToAddrAt]
        unfold Text.updateEntry
        split_ifs <;> rfl
      rw [hsec]
      unfold labelToAddrAt
      cases hlookup : e.labelToAddr.lookup entry.hash with
      | some addr => rw [if_neg (by simp)]
      | none => rw [if_pos ⟨htype, rfl⟩]

/-- **The object after the pass.** -/
theorem resolveUnresolvedInstructions_eq (e : ELF32) :
    e.resolveUnresolvedInstructions =
      { e with
        secText :=
          { e.secText with data := e.unresolvedInstructions.foldl (patch e.target) e.secText.data }
        labelToAddr := e.unresolvedInstructions.foldl entered e.labelToAddr } := by
  unfold resolveUnresolvedInstructions
  suffices hfold : ∀ (entries : List UnresolvedInst32) (e : ELF32),
      entries.foldl resolveInstruction e =
        { e with
          secText := { e.secText with data := entries.foldl (patch e.target) e.secText.data }
          labelToAddr := entries.foldl entered e.labelToAddr } from
    hfold e.unresolvedInstructions e
  intro entries
  induction entries with
  | nil => exact fun _ => rfl
  | cons entry entries ih =>
      intro e
      have htarget : (e.resolveInstruction entry).target = e.target :=
        funext (e.target_resolveInstruction entry)
      rw [List.foldl_cons, ih, htarget, resolveInstruction_eq]
      rfl

/-- A hash that has an address keeps one. -/
theorem lookup_entered_ne_none {labelToAddr : AList fun _ : Word => Word} {hash : Word}
    (h : labelToAddr.lookup hash ≠ none) (entry : UnresolvedInst32) :
    (entered labelToAddr entry).lookup hash ≠ none := by
  unfold entered
  split_ifs with hnew
  · have hne : hash ≠ entry.hash := by
      rintro rfl
      exact h hnew.2
    rw [AList.lookup_insert_ne hne]
    exact h
  · exact h

/-- Once a round has asked for a hash, rounds for it enter nothing. -/
theorem entered_foldl_entered (entry : UnresolvedInst32) (post : List UnresolvedInst32)
    (labelToAddr : AList fun _ : Word => Word) :
    entered (post.foldl entered (entered labelToAddr entry)) entry =
      post.foldl entered (entered labelToAddr entry) := by
  by_cases htype : entry.insnType = .bType ∨ entry.insnType = .uType ∨ entry.insnType = .jType
  · have hfirst : (entered labelToAddr entry).lookup entry.hash ≠ none := by
      unfold entered
      split_ifs with hnew
      · rw [AList.lookup_insert]
        simp
      · exact fun hnone => hnew ⟨htype, hnone⟩
    have hlater : (post.foldl entered (entered labelToAddr entry)).lookup entry.hash ≠ none := by
      generalize entered labelToAddr entry = m at hfirst
      induction post generalizing m with
      | nil => exact hfirst
      | cons e post ih => exact ih (entered m e) (lookup_entered_ne_none hfirst e)
    unfold entered at hlater ⊢
    rw [if_neg fun h => hlater h.2]
  · unfold entered
    rw [if_neg fun h => htype h.1]

/-- A second round of the same entries enters nothing. -/
theorem foldl_entered_foldl_entered (entries : List UnresolvedInst32)
    (labelToAddr : AList fun _ : Word => Word) :
    entries.foldl entered (entries.foldl entered labelToAddr) =
      entries.foldl entered labelToAddr := by
  have hidle : ∀ entry ∈ entries, entered (entries.foldl entered labelToAddr) entry =
      entries.foldl entered labelToAddr := by
    intro entry he
    obtain ⟨pre, post, rfl⟩ := List.append_of_mem he
    rw [List.foldl_append, List.foldl_cons]
    exact entered_foldl_entered entry post _
  generalize entries.foldl entered labelToAddr = m at hidle
  induction entries with
  | nil => rfl
  | cons entry entries ih =>
      rw [List.foldl_cons, hidle entry List.mem_cons_self]
      exact ih fun e he => hidle e (List.mem_cons_of_mem _ he)

/-! ## Only immediates -/

/-- What a fixup has no business with: the other fields of the word. -/
def SameFields (insnType : InstType) (w w' : Word) : Prop :=
  match insnType with
  | .bType => Rv32i.opcode w' = Rv32i.opcode w ∧ Rv32i.funct3 w' = Rv32i.funct3 w ∧
      Rv32i.rs1 w' = Rv32i.rs1 w ∧ Rv32i.rs2 w' = Rv32i.rs2 w
  | .jType => Rv32i.opcode w' = Rv32i.opcode w ∧ Rv32i.rd w' = Rv32i.rd w
  | _ => True

/-- Every round of the pass leaves the other fields of the word at its slot alone, and a second pass does
nothing. -/
structure OnlyImmediates (e : ELF32) : Prop where
  rounds : ∀ pre entry post w w', e.unresolvedInstructions = pre ++ entry :: post →
    (pre.foldl resolveInstruction e).secText.data[entry.insnNumber.toNat]? = some w →
    ((pre ++ [entry]).foldl resolveInstruction e).secText.data[entry.insnNumber.toNat]? = some w' →
      SameFields entry.insnType w w'
  again : e.resolveUnresolvedInstructions.resolveUnresolvedInstructions =
    e.resolveUnresolvedInstructions

/-- The word at a slot, after a round for it. -/
theorem getElem?_round (e : ELF32) (pre : List UnresolvedInst32) (entry : UnresolvedInst32) :
    ((pre ++ [entry]).foldl resolveInstruction e).secText.data[entry.insnNumber.toNat]? =
      (pre.foldl resolveInstruction e).secText.data[entry.insnNumber.toNat]?.map fun w =>
        rewriteAt e.target entry.insnNumber.toNat w entry := by
  rw [List.foldl_append, List.foldl_cons, List.foldl_nil, text_resolveInstruction,
    (e.foldl_resolveInstruction pre).2, patch_getElem?]

/-- The words that the rounds of branch entries find have equal registers. -/
theorem balanced_of_rounds {e : ELF32} (h : ∀ pre entry post w,
    e.unresolvedInstructions = pre ++ entry :: post → entry.insnType = .bType →
      (pre.foldl resolveInstruction e).secText.data[entry.insnNumber.toNat]? = some w →
        Rv32i.rs1 w = Rv32i.rs2 w) {k : ℕ} {w : Word} (hw : e.secText.data[k]? = some w) :
    Balanced e.target k e.unresolvedInstructions w := by
  intro pre entry post hsplit hk ht
  apply h pre entry post _ hsplit ht
  rw [(e.foldl_resolveInstruction pre).1, foldl_patch_getElem?, hk, hw, Option.map_some]

/-- **When fixups change only immediates**: when no branch entry comes to a word with two different
registers, which it would swap. -/
theorem onlyImmediates_iff (e : ELF32) :
    e.OnlyImmediates ↔ ∀ pre entry post w,
      e.unresolvedInstructions = pre ++ entry :: post → entry.insnType = .bType →
        (pre.foldl resolveInstruction e).secText.data[entry.insnNumber.toNat]? = some w →
          Rv32i.rs1 w = Rv32i.rs2 w := by
  constructor
  · intro h pre entry post w hsplit ht hw
    have hround := getElem?_round e pre entry
    rw [hw, Option.map_some] at hround
    have hsame := h.rounds pre entry post w _ hsplit hw hround
    rw [ht] at hsame
    have hfix : BranchFix e.target entry.insnNumber.toNat entry := branchFix rfl ht
    exact hsame.2.2.1.symm.trans (hfix.rs1 w)
  · intro h
    constructor
    case rounds =>
      intro pre entry post w w' hsplit hw hw'
      rw [getElem?_round, hw, Option.map_some, Option.some.injEq] at hw'
      subst hw'
      unfold SameFields
      split
      · next ht =>
        have hfix : BranchFix e.target entry.insnNumber.toNat entry := branchFix rfl ht
        have hregs := h pre entry post w hsplit ht hw
        rw [hfix.rs1, hfix.rs2, hregs]
        exact ⟨hfix.opcode w, hfix.funct3 w, rfl, rfl⟩
      · next ht =>
        have hfix : UpperFix e.target entry.insnNumber.toNat entry := upperFix rfl (Or.inr ht)
        exact ⟨hfix.opcode w, hfix.rd w⟩
      · trivial
    case again =>
      have htarget : e.resolveUnresolvedInstructions.target = e.target :=
        (e.foldl_resolveInstruction e.unresolvedInstructions).2
      have htext : e.unresolvedInstructions.foldl (patch e.target)
          (e.unresolvedInstructions.foldl (patch e.target) e.secText.data) =
            e.unresolvedInstructions.foldl (patch e.target) e.secText.data := by
        apply List.ext_getElem?
        intro k
        rw [foldl_patch_getElem?, foldl_patch_getElem?, Option.map_map]
        cases hw : e.secText.data[k]? with
        | none => rfl
        | some w => exact congrArg some (balanced_of_rounds h hw).rewritten_rewritten
      rw [e.resolveUnresolvedInstructions.resolveUnresolvedInstructions_eq, htarget]
      rw [e.resolveUnresolvedInstructions_eq]
      simp only [htext, foldl_entered_foldl_entered]

/-- A branch word with two different registers comes out with the registers exchanged. -/
theorem registers_swapped : ¬ ∀ e : ELF32, e.OnlyImmediates := by
  intro h
  have hregs := (onlyImmediates_iff _).mp
    (h (build [.addToText 0x00628063, .addToUnresolvedInsns 0 .bType 7 0]))
    [] ⟨0, 0, .bType, 7⟩ [] 0x00628063 rfl rfl rfl
  revert hregs
  decide

end ELF32

end RiscvAssembler
