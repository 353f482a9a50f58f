import RiscvAssembler.Alongside
import RiscvAssembler.FixupWords
import RiscvAssembler.Refinement

/-!
# Other names

A program with other names for its labels, data and symbols. Names reach the object in three ways: as they
are, in the string table; as keys of maps; and as hashes, which are keys too, and which a branch to a label
without an address carries in its word until the pass comes to it.

* `Renamed`: the states of the two runs. Every reduction keeps this (`Renamed.step`).
* `SameText.foldl_patch`: the pass takes the hashes out again, if every such branch has its own slot.
* `Program.assemble_rename`: the two objects differ in the names of their symbols, and in nothing else.
-/

namespace RiscvAssembler

open Runs ParserState Bytes Gabi Overwrites

/-! ## Renamed programs -/

section

variable (f : Symbol → Symbol)

def ImmediateKind.rename : ImmediateKind → ImmediateKind
  | .imm ival => .imm ival
  | .modifier hi => .modifier (f hi)
  | .symbol y => .symbol (f y)

def PsuedoInstruction.rename : PsuedoInstruction → PsuedoInstruction
  | .la rd symbol => .la rd (f symbol)
  | .jump symbol => .jump (f symbol)
  | .mov rd rs => .mov rd rs
  | .ret => .ret

def Instruction.rename : Instruction → Instruction
  | .rType op rd rs1 rs2 => .rType op rd rs1 rs2
  | .iType op rd rs1 imm => .iType op rd rs1 (imm.rename f)
  | .loadStore op r imm base => .loadStore op r imm base
  | .branch op rs1 rs2 symbol => .branch op rs1 rs2 (f symbol)
  | .opcode op => .opcode op
  | .psuedo p => .psuedo (p.rename f)

def Directive.rename : Directive → Directive
  | .global symbol => .global (f symbol)
  | d => d

def Instructions.rename (block : Instructions) : Instructions where
  toList := block.toList.map (Instruction.rename f)
  nonempty := by simpa using block.nonempty

def Statement.rename : Statement → Statement
  | .labelInstructions label block => .labelInstructions (f label) (block.rename f)
  | .labelDirective label d => .labelDirective (f label) (d.rename f)
  | .directive d => .directive (d.rename f)

/-- The program with another symbol in the place of each. -/
def Program.rename (p : Program) : Program where
  statements := p.statements.map (Statement.rename f)
  nonempty := by simpa using p.nonempty

def Reduction.rename : Reduction → Reduction
  | .instruction i => .instruction (i.rename f)
  | .labelInstructions label => .labelInstructions (f label)
  | .labelDirective label => .labelDirective (f label)
  | .directive d => .directive (d.rename f)

theorem Statement.reductions_rename (st : Statement) :
    (st.rename f).reductions = st.reductions.map (Reduction.rename f) := by
  cases st with
  | labelInstructions label block =>
      simp only [Statement.rename, Statement.reductions, Instructions.rename, List.map_append, List.map_map,
        List.map_cons, List.map_nil]
      rfl
  | labelDirective label d => rfl
  | directive d => rfl

/-- The parser makes the same reductions, of other symbols. -/
theorem Program.reductions_rename (p : Program) :
    (p.rename f).reductions = p.reductions.map (Reduction.rename f) := by
  simp only [Program.reductions, Program.rename, reductionsOf, List.flatMap_map, List.map_flatMap,
    Statement.reductions_rename]

end

theorem Instruction.rename_id (i : Instruction) : i.rename id = i := by
  cases i with
  | iType op rd rs1 imm => cases imm <;> rfl
  | psuedo p => cases p <;> rfl
  | _ => rfl

theorem Reduction.rename_id (r : Reduction) : r.rename id = r := by
  cases r with
  | instruction i => exact congrArg Reduction.instruction i.rename_id
  | directive d => cases d <;> rfl
  | _ => rfl

/-- The symbols of an instruction by which it finds something; `la` and `%hi` find nothing. -/
def Instruction.symbols : Instruction → List Symbol
  | .iType _ _ _ (.symbol symbol) => [symbol]
  | .branch _ _ _ symbol => [symbol]
  | .psuedo (.jump symbol) => [symbol]
  | _ => []

/-- The symbols of a reduction whose names get into the object. -/
def Reduction.symbols : Reduction → List Symbol
  | .instruction i => i.symbols
  | .labelInstructions label => [label]
  | .labelDirective label => [label]
  | .directive (.global symbol) => [symbol]
  | .directive _ => []

/-- The symbols of a program whose names get into the object. -/
def Program.symbols (p : Program) : List Symbol := p.reductions.flatMap Reduction.symbols

/-- Different symbols stay different, and hashes that differ and hashes that do not stay so. -/
structure KeepsApart (f : Symbol → Symbol) (names : List Symbol) : Prop where
  symbols : ∀ a ∈ names, ∀ b ∈ names, f a = f b → a = b
  hashes : ∀ a ∈ names, ∀ b ∈ names, hasher (f a).text = hasher (f b).text ↔ hasher a.text = hasher b.text

/-- A name after the renaming; all names of symbols are texts of symbols. -/
def renameText (f : Symbol → Symbol) (text : Str) : Str :=
  if h : isSymbolText text = true then (f ⟨text, h⟩).text else text

@[simp] theorem renameText_text (f : Symbol → Symbol) (symbol : Symbol) :
    renameText f symbol.text = (f symbol).text := dif_pos symbol.isSymbol

def Item.rename (f : Symbol → Symbol) (item : Item) : Item := { item with name := renameText f item.name }

/-! ## Words that hold a hash -/

/-- The two words are one branch, up to the displacement. -/
structure SameBranch (w w' : Word) : Prop where
  opcode : Rv32i.opcode w = Rv32i.opcode w'
  funct3 : Rv32i.funct3 w = Rv32i.funct3 w'
  rs1 : Rv32i.rs1 w = Rv32i.rs1 w'
  rs2 : Rv32i.rs2 w = Rv32i.rs2 w'

/-- The two entries are one, up to the name. -/
structure SameEntry (f : Symbol → Symbol) (names : List Symbol) (a b : UnresolvedInst32) : Prop where
  insnNumber : b.insnNumber = a.insnNumber
  pcInsnNumber : b.pcInsnNumber = a.pcInsnNumber
  insnType : b.insnType = a.insnType
  hash : ∃ l ∈ names, a.hash = hasher l.text ∧ b.hash = hasher (f l).text

section

variable {f : Symbol → Symbol} {names : List Symbol} {target target' : Word → Word} {k : ℕ}
  {a b : UnresolvedInst32} {w w' : Word}

/-- The same entry makes the same of a word. -/
theorem SameEntry.rewriteAt_eq (h : SameEntry f names a b)
    (htarget : ∀ l ∈ names, target' (hasher (f l).text) = target (hasher l.text)) (w : Word) :
    rewriteAt target' k w b = rewriteAt target k w a := by
  obtain ⟨l, hl, ha, hb⟩ := h.hash
  simp only [rewriteAt, h.insnNumber, h.insnType, h.pcInsnNumber, ha, hb, htarget l hl]

/-- A branch entry for the word leaves nothing of its displacement. -/
theorem SameBranch.rewriteAt_eq (h : SameBranch w w') (hk : a.insnNumber.toNat = k)
    (ht : a.insnType = .bType) : rewriteAt target k w a = rewriteAt target k w' a := by
  have hfix : BranchFix target k a := branchFix hk ht
  refine Rv32i.ext_bType ?_ ?_ ?_ ?_ (hfix.immB w w')
  · rw [hfix.opcode w, hfix.opcode w', h.opcode]
  · rw [hfix.funct3 w, hfix.funct3 w', h.funct3]
  · rw [hfix.rs1 w, hfix.rs1 w', h.rs2]
  · rw [hfix.rs2 w, hfix.rs2 w', h.rs1]

/-- No entry lets the displacement out into the other fields. -/
theorem SameBranch.rewriteAt (h : SameBranch w w') (entry : UnresolvedInst32) :
    SameBranch (rewriteAt target k w entry) (rewriteAt target k w' entry) := by
  rcases rewriteAt_kinds target k entry with hidle | ⟨hk, ht, -⟩ | hupper
  · have hw : RiscvAssembler.rewriteAt target k w entry = w := hidle w
    have hw' : RiscvAssembler.rewriteAt target k w' entry = w' := hidle w'
    rwa [hw, hw']
  · rw [h.rewriteAt_eq hk ht]
    exact ⟨rfl, rfl, rfl, rfl⟩
  · obtain ⟨hfunct3, hrs1, hrs2⟩ := Rv32i.fields_of_immU (hupper.immU w w')
    exact ⟨by rw [hupper.opcode w, hupper.opcode w', h.opcode], hfunct3, hrs1, hrs2⟩

/-- **The pass takes the hash out** of a word for which there is a branch entry. -/
theorem SameBranch.rewritten_eq {entries entries' : List UnresolvedInst32}
    (hentries : List.Forall₂ (SameEntry f names) entries entries')
    (htarget : ∀ l ∈ names, target' (hasher (f l).text) = target (hasher l.text)) (h : SameBranch w w')
    (hentry : ∃ entry ∈ entries, entry.insnType = .bType ∧ entry.insnNumber.toNat = k) :
    rewritten target entries k w = rewritten target' entries' k w' := by
  induction hentries generalizing w w' with
  | nil =>
      obtain ⟨entry, hmem, -⟩ := hentry
      cases hmem
  | cons hab hrest ih =>
      rw [rewritten_cons, rewritten_cons, hab.rewriteAt_eq htarget]
      obtain ⟨entry, hmem, ht, hk⟩ := hentry
      rcases List.mem_cons.mp hmem with rfl | hmem
      · -- from here on, the two words are the same
        rw [h.rewriteAt_eq hk ht]
        exact rewritten_congr target hrest (fun a b hab w => (hab.rewriteAt_eq htarget w).symm) _
      · exact ih (h.rewriteAt _) ⟨entry, hmem, ht, hk⟩

end

/-! ## Texts and tables -/

/-- A branch is still to be patched at index `k`. -/
def Waits (entries : List UnresolvedInst32) (k : ℕ) : Prop :=
  ∃ entry ∈ entries, entry.insnType = .bType ∧ entry.insnNumber.toNat = k

theorem Waits.append {entries : List UnresolvedInst32} {k : ℕ} (h : Waits entries k)
    (more : List UnresolvedInst32) : Waits (entries ++ more) k := by
  obtain ⟨entry, hmem, hentry⟩ := h
  exact ⟨entry, List.mem_append_left _ hmem, hentry⟩

/-- The words are the same, up to the displacements of branches that are still to be patched. -/
structure SameText (entries : List UnresolvedInst32) (ws ws' : List Word) : Prop where
  length : ws'.length = ws.length
  words : ∀ k w w', ws[k]? = some w → ws'[k]? = some w' → w = w' ∨ SameBranch w w' ∧ Waits entries k

namespace SameText

variable {entries more : List UnresolvedInst32} {ws ws' : List Word}

/-- Words behind the others. -/
theorem append (h : SameText entries ws ws') {xs xs' : List Word} (hlen : xs'.length = xs.length)
    (hxs : ∀ k w w', xs[k]? = some w → xs'[k]? = some w' →
      w = w' ∨ SameBranch w w' ∧ Waits (entries ++ more) (ws.length + k)) :
    SameText (entries ++ more) (ws ++ xs) (ws' ++ xs') := by
  refine ⟨by rw [List.length_append, List.length_append, h.length, hlen], ?_⟩
  intro k w w' hw hw'
  rcases Nat.lt_or_ge k ws.length with hlt | hge
  · rw [List.getElem?_append_left hlt] at hw
    rw [List.getElem?_append_left (h.length ▸ hlt)] at hw'
    exact (h.words k w w' hw hw').imp_right (And.imp_right fun hwaits => hwaits.append more)
  · rw [List.getElem?_append_right hge] at hw
    rw [List.getElem?_append_right (h.length ▸ hge), h.length] at hw'
    have hk : ws.length + (k - ws.length) = k := by omega
    exact hk ▸ hxs (k - ws.length) w w' hw hw'

/-- The same words behind the others. -/
theorem append_same (h : SameText entries ws ws') (more : List UnresolvedInst32) (xs : List Word) :
    SameText (entries ++ more) (ws ++ xs) (ws' ++ xs) :=
  h.append rfl fun _ _ _ hw hw' => Or.inl (Option.some.inj (hw.symm.trans hw'))

/-- A branch that is to be patched, behind the other words. -/
theorem append_branch (h : SameText entries ws ws') {w w' : Word} (hw : SameBranch w w')
    {entry : UnresolvedInst32} (ht : entry.insnType = .bType) (hslot : entry.insnNumber.toNat = ws.length) :
    SameText (entries ++ [entry]) (ws ++ [w]) (ws' ++ [w']) := by
  refine h.append rfl ?_
  intro k x x' hx hx'
  rw [List.getElem?_singleton] at hx hx'
  split_ifs at hx hx' with hk
  cases hx
  cases hx'
  subst hk
  exact Or.inr ⟨hw, entry, List.mem_append_right _ (List.mem_singleton_self _), ht, hslot⟩

/-- **After the pass the words are the same.** -/
theorem foldl_patch {f : Symbol → Symbol} {names : List Symbol} {target target' : Word → Word}
    {entries' : List UnresolvedInst32} (h : SameText entries ws ws')
    (hentries : List.Forall₂ (SameEntry f names) entries entries')
    (htarget : ∀ l ∈ names, target' (hasher (f l).text) = target (hasher l.text)) :
    entries'.foldl (patch target') ws' = entries.foldl (patch target) ws := by
  apply List.ext_getElem?
  intro k
  rw [foldl_patch_getElem?, foldl_patch_getElem?]
  rcases Nat.lt_or_ge k ws.length with hlt | hge
  · obtain ⟨w, hw⟩ : ∃ w, ws[k]? = some w := ⟨_, List.getElem?_eq_getElem hlt⟩
    obtain ⟨w', hw'⟩ : ∃ w', ws'[k]? = some w' := ⟨_, List.getElem?_eq_getElem (h.length ▸ hlt)⟩
    have hsame : rewritten target' entries' k w' = rewritten target entries k w := by
      rcases h.words k w w' hw hw' with rfl | ⟨hbranch, hwaits⟩
      · exact rewritten_congr target hentries (fun a b hab w => (hab.rewriteAt_eq htarget w).symm) w |>.symm
      · exact (hbranch.rewritten_eq hentries htarget hwaits).symm
    rw [hw, hw', Option.map_some, Option.map_some, hsame]
  · rw [List.getElem?_eq_none hge, List.getElem?_eq_none (h.length ▸ hge), Option.map_none, Option.map_none]

end SameText

/-- The tables hold the same items, of which each has the name of a symbol, up to the names. -/
def SameTables (f : Symbol → Symbol) (e e' : ELF32) : Prop :=
  ∃ known known' items, (∀ item ∈ items, isSymbolText item.name = true) ∧
    e.Tables known items ∧ e'.Tables known' (items.map (Item.rename f))

/-- A label in both tables. -/
theorem SameTables.initLabel {f : Symbol → Symbol} {e e' : ELF32} (h : SameTables f e e') {symbol : Symbol}
    (hexists : e'.labelExists (f symbol).text = e.labelExists symbol.text) (isGlobal : Bool)
    (sectionName : Str) :
    SameTables f (e.initLabel symbol.text isGlobal sectionName)
      (e'.initLabel (f symbol).text isGlobal sectionName) := by
  obtain ⟨known, known', items, hnames, htables, htables'⟩ := h
  have hinit := htables.initLabel symbol.text isGlobal sectionName
  have hinit' := htables'.initLabel (f symbol).text isGlobal sectionName
  have hknown : (f symbol).text ∈ known' ↔ symbol.text ∈ known := by
    rw [← htables.known, ← htables'.known, hexists]
  refine ⟨_, known' ++ [(f symbol).text], _, ?_, hinit, ?_⟩
  · intro item hitem
    rcases List.mem_append.mp hitem with hitem | hitem
    · exact hnames item hitem
    · split_ifs at hitem
      · cases hitem
      · rw [List.mem_singleton.mp hitem]
        exact symbol.isSymbol
  · by_cases hmem : symbol.text ∈ known
    · rw [if_pos (hknown.mpr hmem)] at hinit'
      rw [if_pos hmem]
      simpa using hinit'
    · rw [if_neg (mt hknown.mp hmem)] at hinit'
      rw [if_neg hmem]
      simpa [Item.rename] using hinit'

/-- A datum in both tables. -/
theorem SameTables.addProgramData {f : Symbol → Symbol} {e e' : ELF32} (h : SameTables f e e')
    (symbol : Symbol) (value sectionName : Str) :
    SameTables f (e.addProgramData symbol.text value sectionName)
      (e'.addProgramData (f symbol).text value sectionName) := by
  obtain ⟨known, known', items, hnames, htables, htables'⟩ := h
  have hdata := htables.addProgramData symbol.text value sectionName
  have hdata' := htables'.addProgramData (f symbol).text value sectionName
  refine ⟨known, known', _, ?_, hdata, by simpa [Item.rename] using hdata'⟩
  intro item hitem
  rcases List.mem_append.mp hitem with hitem | hitem
  · exact hnames item hitem
  · rw [List.mem_singleton.mp hitem]
    exact symbol.isSymbol

/-! ## What a reduction makes of symbols and sections -/

section

variable {f : Symbol → Symbol} {names : List Symbol} {s s' t t' : ParserState} {i : Instruction}
  {r : Reduction}

/-- The values of the symbols after an instruction. -/
theorem symbolValue_rename (hf : KeepsApart f names)
    (h : ∀ y ∈ names, s'.symbolValue (f y).text = s.symbolValue y.text)
    (hi : ∀ y ∈ i.symbols, y ∈ names) (ht : step s (.instruction i) = .ok t)
    (ht' : step s' (.instruction (i.rename f)) = .ok t') :
    ∀ y ∈ names, t'.symbolValue (f y).text = t.symbolValue y.text := by
  intro y hy
  rw [ParserState.symbolValue, ParserState.symbolValue, (step_instruction ht).symbols,
    (step_instruction ht').symbols]
  cases i with
  | iType op rd rs1 imm =>
      cases imm with
      | symbol symbol =>
          have hmem := hi symbol List.mem_cons_self
          simp only [Instruction.rename, ImmediateKind.rename, symbolsAfter, symbolExists_eq,
            h symbol hmem]
          split_ifs
          · exact h y hy
          · by_cases hne : y = symbol
            · rw [hne, AList.lookup_insert, AList.lookup_insert]
              rfl
            · have htext : y.text ≠ symbol.text := fun heq => hne (Symbol.ext heq)
              have htext' : (f y).text ≠ (f symbol).text :=
                fun heq => hne (hf.symbols y hy symbol hmem (Symbol.ext heq))
              rw [AList.lookup_insert_ne htext, AList.lookup_insert_ne htext']
              exact h y hy
      | _ => exact h y hy
  | _ => exact h y hy

/-- The parser's own part of the state after a reduction. -/
theorem globals_rename (htemp : s'.tempValue = s.tempValue)
    (hsection : s'.currentSection = s.currentSection) (ht : step s r = .ok t)
    (ht' : step s' (r.rename f) = .ok t') :
    t'.tempValue = t.tempValue ∧ t'.currentSection = t.currentSection := by
  cases r with
  | instruction i =>
      have hi := step_instruction ht
      have hi' := step_instruction ht'
      rw [hi.tempValue, hi'.tempValue, hi.currentSection, hi'.currentSection]
      exact ⟨htemp, hsection⟩
  | labelInstructions label =>
      cases ht
      cases ht'
      exact ⟨htemp, hsection⟩
  | labelDirective label =>
      cases ht
      cases ht'
      simp only [labelDirectiveAction, htemp]
      split_ifs <;> exact ⟨rfl, hsection⟩
  | directive d =>
      cases ht
      cases ht'
      cases d <;> first | exact ⟨htemp, hsection⟩ | exact ⟨htemp, rfl⟩ | exact ⟨rfl, rfl⟩

end

/-! ## The two runs -/

/-- The two states are one, up to the names and to what becomes of them. -/
structure Renamed (f : Symbol → Symbol) (names : List Symbol) (s s' : ParserState) : Prop where
  tempValue : s'.tempValue = s.tempValue
  currentSection : s'.currentSection = s.currentSection
  labels : ∀ l ∈ names, s'.elf.resolvedLabels.lookup (f l).text = s.elf.resolvedLabels.lookup l.text
  targets : ∀ l ∈ names, s'.elf.target (hasher (f l).text) = s.elf.target (hasher l.text)
  symbolValue : ∀ y ∈ names, s'.symbolValue (f y).text = s.symbolValue y.text
  unresolved : List.Forall₂ (SameEntry f names) s.elf.unresolvedInstructions s'.elf.unresolvedInstructions
  text : SameText s.elf.unresolvedInstructions s.elf.secText.data s'.elf.secText.data
  tables : SameTables f s.elf s'.elf

namespace Renamed

variable {f : Symbol → Symbol} {names : List Symbol} {s s' t t' : ParserState}

theorem start : Renamed f names start start :=
  ⟨rfl, rfl, fun _ _ => rfl, fun _ _ => rfl, fun _ _ => rfl, .nil, ⟨rfl, fun _ _ _ hw _ => by cases hw⟩,
    [], [], [], by simp, ELF32.tables_init, ELF32.tables_init⟩

theorem labelExists (h : Renamed f names s s') {l : Symbol} (hl : l ∈ names) :
    s'.elf.labelExists (f l).text = s.elf.labelExists l.text := by
  rw [Bool.eq_iff_iff, ELF32.labelExists_iff, ELF32.labelExists_iff, h.labels l hl]

theorem labelAddr (h : Renamed f names s s') : s'.labelAddr = s.labelAddr := by
  rw [ParserState.labelAddr, ParserState.labelAddr, Text.lastIndex_eq, Text.lastIndex_eq, h.text.length]

/-! ### Instructions -/

theorem offsetIdx_resolveSymbol (s : ParserState) (y : Str) :
    (s.elf.resolveSymbol y).offsetIdx = (s.symbolValue y).getD 0 := by
  rw [ParserState.symbolValue, ELF32.resolveSymbol]
  cases s.elf.symbols.lookup y <;> rfl

section

variable {i : Instruction}

theorem accepted (h : Renamed f names s s') (hi : ∀ y ∈ i.symbols, y ∈ names) :
    (i.rename f).Accepted s' ↔ i.Accepted s := by
  cases i with
  | psuedo p =>
      cases p with
      | jump symbol =>
          simp only [Instruction.rename, PsuedoInstruction.rename, Instruction.Accepted,
            h.labels symbol (hi symbol List.mem_cons_self)]
      | _ => exact Iff.rfl
  | iType op rd rs1 imm => cases imm <;> exact Iff.rfl
  | _ => exact Iff.rfl

/-- The words are the same, but for the words of branches to labels without an address. -/
theorem emitted (h : Renamed f names s s') (hi : ∀ y ∈ i.symbols, y ∈ names)
    (hknown : ∀ label, i.reference = some (.bType, label) → s.elf.labelExists label = true) :
    emitted s' (i.rename f) = emitted s i := by
  cases i with
  | iType op rd rs1 imm =>
      cases imm with
      | symbol symbol =>
          have hvalue := h.symbolValue symbol (hi symbol List.mem_cons_self)
          simp only [Instruction.rename, ImmediateKind.rename, ParserState.emitted, symbolExists_eq,
            offsetIdx_resolveSymbol, hvalue]
      | _ => rfl
  | branch op rs1 rs2 symbol =>
      obtain ⟨addr, haddr⟩ := s.elf.labelExists_iff.mp (hknown _ rfl)
      have haddr' := (h.labels symbol (hi symbol List.mem_cons_self)).trans haddr
      simp only [Instruction.rename, ParserState.emitted, branchOffset, haddr, haddr', Option.getD_some]
  | psuedo p =>
      cases p with
      | jump symbol =>
          simp only [Instruction.rename, PsuedoInstruction.rename, ParserState.emitted,
            h.labels symbol (hi symbol List.mem_cons_self)]
      | _ => rfl
  | _ => rfl

/-- The entries are the same, up to the names. -/
theorem pended (h : Renamed f names s s') (hi : ∀ y ∈ i.symbols, y ∈ names) :
    List.Forall₂ (SameEntry f names) (pended s i) (pended s' (i.rename f)) := by
  have hentry : ∀ (insnType : InstType) (symbol : Symbol), symbol ∈ names →
      SameEntry f names (s.pendingEntry insnType symbol.text) (s'.pendingEntry insnType (f symbol).text) := by
    intro insnType symbol hmem
    have hnext : ∀ sec, s'.elf.getNextInsnNumber sec = s.elf.getNextInsnNumber sec := by
      intro sec
      rw [ELF32.getNextInsnNumber, ELF32.getNextInsnNumber, Text.nextIndex, Text.nextIndex, h.text.length]
    constructor
    · simp only [pendingEntry, h.currentSection, hnext]
    · simp only [pendingEntry, h.currentSection, hnext]
    · rfl
    · exact ⟨symbol, hmem, rfl, rfl⟩
  have hreference : ∀ (insnType : InstType) (symbol : Symbol), symbol ∈ i.symbols →
      i.reference = some (insnType, symbol.text) →
      (i.rename f).reference = some (insnType, (f symbol).text) →
      List.Forall₂ (SameEntry f names) (ParserState.pended s i) (ParserState.pended s' (i.rename f)) := by
    intro insnType symbol hmem href href'
    simp only [ParserState.pended, href, href', h.labelExists (hi symbol hmem)]
    split_ifs
    · exact .nil
    · exact .cons (hentry insnType symbol (hi symbol hmem)) .nil
  cases i with
  | branch op rs1 rs2 symbol => exact hreference .bType symbol List.mem_cons_self rfl rfl
  | psuedo p =>
      cases p with
      | jump symbol => exact hreference .jType symbol List.mem_cons_self rfl rfl
      | _ => exact .nil
  | iType op rd rs1 imm => cases imm <;> exact .nil
  | _ => exact .nil

/-- The words of a branch to a label without an address are the same but for the hash. -/
theorem text_instruction (h : Renamed f names s s') (hi : ∀ y ∈ i.symbols, y ∈ names)
    (hown : ∀ label, i.reference = some (.bType, label) → s.elf.labelExists label = false → s.OwnSlot) :
    SameText (s.elf.unresolvedInstructions ++ ParserState.pended s i)
      (s.elf.secText.data ++ ParserState.emitted s i)
      (s'.elf.secText.data ++ ParserState.emitted s' (i.rename f)) := by
  by_cases hwaits : ∃ label, i.reference = some (.bType, label) ∧ s.elf.labelExists label = false
  · obtain ⟨label, href, hnew⟩ := hwaits
    have hunknown := s.elf.labelExists_eq_false.mp hnew
    have hslot := (s.pendingEntry_own_iff .bType label).mpr (hown label href hnew)
    have hpended : ParserState.pended s i = [s.pendingEntry .bType label] := by
      simp only [ParserState.pended, href, hnew]
      rfl
    cases i with
    | branch op rs1 rs2 symbol =>
        rw [hpended]
        refine h.text.append_branch ?_ rfl hslot
        constructor <;> simp
    | psuedo p => cases p <;> cases href
    | iType op rd rs1 imm => cases imm <;> cases href
    | _ => cases href
  · rw [h.emitted hi fun label href => by
      by_contra hnew
      exact hwaits ⟨label, href, Bool.eq_false_iff.mpr hnew⟩]
    exact h.text.append_same _ _

end

/-! ### Labels and tables -/

section

variable {r : Reduction}

/-- What a reduction records, under both names. -/
theorem records_rename (f : Symbol → Symbol) (r : Reduction) :
    (∃ symbol ∈ r.symbols, r.records = some symbol.text ∧ (r.rename f).records = some (f symbol).text) ∨
      r.records = none ∧ (r.rename f).records = none := by
  cases r with
  | instruction i => exact Or.inr ⟨rfl, rfl⟩
  | labelInstructions label => exact Or.inl ⟨label, List.mem_cons_self, rfl, rfl⟩
  | labelDirective label => exact Or.inr ⟨rfl, rfl⟩
  | directive d =>
      cases d with
      | global symbol => exact Or.inl ⟨symbol, List.mem_cons_self, rfl, rfl⟩
      | _ => exact Or.inr ⟨rfl, rfl⟩

/-- The labels after a reduction. -/
theorem labels_step (hf : KeepsApart f names) (h : Renamed f names s s') (hr : ∀ y ∈ r.symbols, y ∈ names)
    (ht : step s r = .ok t) (ht' : step s' (r.rename f) = .ok t') :
    (∀ l ∈ names, t'.elf.resolvedLabels.lookup (f l).text = t.elf.resolvedLabels.lookup l.text) ∧
      ∀ l ∈ names, t'.elf.target (hasher (f l).text) = t.elf.target (hasher l.text) := by
  -- whether a name is new is the same in both runs
  have hkept : t.elf.resolvedLabels = s.elf.resolvedLabels → t.elf.labelToAddr = s.elf.labelToAddr →
      t'.elf.resolvedLabels = s'.elf.resolvedLabels → t'.elf.labelToAddr = s'.elf.labelToAddr →
      (∀ l ∈ names, t'.elf.resolvedLabels.lookup (f l).text = t.elf.resolvedLabels.lookup l.text) ∧
        ∀ l ∈ names, t'.elf.target (hasher (f l).text) = t.elf.target (hasher l.text) := by
    intro hres haddr hres' haddr'
    rw [hres, hres']
    refine ⟨h.labels, ?_⟩
    simp only [ELF32.target, haddr, haddr']
    exact h.targets
  rcases records_rename f r with ⟨symbol, hmem, hrec, hrec'⟩ | ⟨hrec, hrec'⟩
  · have hexists := h.labelExists (hr symbol hmem)
    rcases step_labels ht with ⟨l, hl, hnew, hres, haddr⟩ | ⟨hold, hres, haddr⟩
    · obtain rfl := Option.some.inj (hrec.symm.trans hl)
      rcases step_labels ht' with ⟨l', hl', -, hres', haddr'⟩ | ⟨hold', -, -⟩
      · obtain rfl := Option.some.inj (hrec'.symm.trans hl')
        constructor
        · intro l hl
          rw [hres, hres', h.labelAddr]
          by_cases hne : l = symbol
          · rw [hne, AList.lookup_insert, AList.lookup_insert]
          · have htext : l.text ≠ symbol.text := fun heq => hne (Symbol.ext heq)
            have htext' : (f l).text ≠ (f symbol).text :=
              fun heq => hne (hf.symbols l hl symbol (hr symbol hmem) (Symbol.ext heq))
            rw [AList.lookup_insert_ne htext, AList.lookup_insert_ne htext']
            exact h.labels l hl
        · intro l hl
          rw [ELF32.target, ELF32.target, haddr, haddr', h.labelAddr]
          by_cases hhash : hasher l.text = hasher symbol.text
          · rw [(hf.hashes l hl symbol (hr symbol hmem)).mpr hhash, hhash, AList.lookup_insert,
              AList.lookup_insert]
          · have hhash' := mt (hf.hashes l hl symbol (hr symbol hmem)).mp hhash
            rw [AList.lookup_insert_ne hhash, AList.lookup_insert_ne hhash']
            exact h.targets l hl
      · exact absurd (hexists.symm.trans (hold' _ hrec')) (by simp [hnew])
    · rcases step_labels ht' with ⟨l', hl', hnew', -, -⟩ | ⟨-, hres', haddr'⟩
      · obtain rfl := Option.some.inj (hrec'.symm.trans hl')
        exact absurd (hexists.symm.trans hnew') (by simp [hold _ hrec])
      · exact hkept hres haddr hres' haddr'
  · rcases step_labels ht with ⟨l, hl, -⟩ | ⟨-, hres, haddr⟩
    · cases hrec.symm.trans hl
    · rcases step_labels ht' with ⟨l', hl', -⟩ | ⟨-, hres', haddr'⟩
      · cases hrec'.symm.trans hl'
      · exact hkept hres haddr hres' haddr'

/-- The tables after a reduction. -/
theorem tables_step (h : Renamed f names s s') (hr : ∀ y ∈ r.symbols, y ∈ names)
    (ht : step s r = .ok t) (ht' : step s' (r.rename f) = .ok t') : SameTables f t.elf t'.elf := by
  cases r with
  | instruction i =>
      obtain ⟨known, known', items, hnames, htables, htables'⟩ := h.tables
      have hi := step_instruction ht
      have hi' := step_instruction ht'
      exact ⟨known, known', items, hnames,
        htables.of_kept hi.resolvedLabels hi.sectionToIdx hi.strtab hi.secData hi.symtab,
        htables'.of_kept hi'.resolvedLabels hi'.sectionToIdx hi'.strtab hi'.secData hi'.symtab⟩
  | labelInstructions label =>
      cases ht
      cases ht'
      show SameTables f (s.elf.initLabel label.text false s.currentSection)
        (s'.elf.initLabel (f label).text false s'.currentSection)
      rw [h.currentSection]
      exact h.tables.initLabel (h.labelExists (hr label List.mem_cons_self)) _ _
  | labelDirective label =>
      cases ht
      cases ht'
      simp only [labelDirectiveAction, h.tempValue, h.currentSection]
      split_ifs
      · exact h.tables.addProgramData label s.tempValue s.currentSection
      · exact h.tables
  | directive d =>
      cases ht
      cases ht'
      cases d with
      | global symbol =>
          simp only [Directive.rename, directiveAction, ELF32.updateLabelVisibility_eq]
          exact h.tables.initLabel (h.labelExists (hr symbol List.mem_cons_self)) _ _
      | _ => exact h.tables

/-- **One reduction, in both runs.** -/
theorem step (hf : KeepsApart f names) (h : Renamed f names s s') (hr : ∀ y ∈ r.symbols, y ∈ names)
    (hown : ∀ i label, r = .instruction i → i.reference = some (.bType, label) →
      s.elf.labelExists label = false → s.OwnSlot) :
    Alike (Renamed f names) (ParserState.step s r) (ParserState.step s' (r.rename f)) := by
  cases r with
  | instruction i =>
      apply alike_of_ok_iff
      · exact (step_instruction_ok_iff s i).trans
          ((h.accepted hr).symm.trans (step_instruction_ok_iff s' (i.rename f)).symm)
      · intro t t' ht ht'
        obtain ⟨htemp, hsection⟩ := globals_rename h.tempValue h.currentSection ht ht'
        obtain ⟨hlabels, htargets⟩ := h.labels_step hf hr ht ht'
        have hi := step_instruction ht
        have hi' := step_instruction ht'
        refine ⟨htemp, hsection, hlabels, htargets, symbolValue_rename hf h.symbolValue hr ht ht', ?_, ?_,
          h.tables_step hr ht ht'⟩
        · rw [hi.unresolved, hi'.unresolved]
          exact List.rel_append h.unresolved (h.pended hr)
        · rw [hi.text, hi'.text, hi.unresolved]
          exact h.text_instruction hr fun label => hown i label rfl
  | _ =>
      refine alike_of_ok_iff (iff_of_true ⟨_, rfl⟩ ⟨_, rfl⟩) ?_
      intro t t' ht ht'
      obtain ⟨htemp, hsection⟩ := globals_rename h.tempValue h.currentSection ht ht'
      obtain ⟨hlabels, htargets⟩ := h.labels_step hf hr ht ht'
      obtain ⟨htext, hunresolved, hsymbols⟩ := step_kept ht (by simp)
      obtain ⟨htext', hunresolved', hsymbols'⟩ := step_kept ht' (by simp [Reduction.rename])
      refine ⟨htemp, hsection, hlabels, htargets, ?_, ?_, ?_, h.tables_step hr ht ht'⟩
      · intro y hy
        rw [ParserState.symbolValue, ParserState.symbolValue, hsymbols, hsymbols']
        exact h.symbolValue y hy
      · rw [hunresolved, hunresolved']
        exact h.unresolved
      · rw [htext, htext', hunresolved]
        exact h.text

end

end Renamed

/-! ## Programs -/

/-- Every branch to a label without an address has its word at its own slot. -/
def Program.BranchesOwn (p : Program) : Prop :=
  ∀ pre i post label s, p.reductions = pre ++ .instruction i :: post → run step start pre = .ok s →
    i.reference = some (.bType, label) → s.elf.labelExists label = false → s.OwnSlot

/-- **Two programs, side by side**, that differ in names. -/
theorem Program.renamed {p : Program} {f : Symbol → Symbol} (hf : KeepsApart f p.symbols)
    (hown : p.BranchesOwn) : Alike (Renamed f p.symbols) p.parse (p.rename f).parse := by
  unfold parse parseReductions
  rw [reductions_rename]
  refine run_map (Reduction.rename f) Renamed.start ?_
  intro pre r post s s' hsplit hs h
  refine h.step hf ?_ ?_
  · intro y hy
    rw [Program.symbols, hsplit]
    exact List.mem_flatMap.mpr ⟨r, List.mem_append_right _ List.mem_cons_self, hy⟩
  · rintro i label rfl href hnew
    exact hown pre i post label s hsplit hs href hnew

/-- Contents, with the names after the renaming. -/
def Contents.rename (f : Symbol → Symbol) (c : Contents) : Contents :=
  { c with symbols := c.symbols.map fun y => { y with name := renameText f y.name } }

theorem symbolsOf_rename {f : Symbol → Symbol} {items : List Item}
    (hnames : ∀ item ∈ items, isSymbolText item.name = true) :
    symbolsOf (items.map (Item.rename f)) =
      (symbolsOf items).map fun y => { y with name := renameText f y.name } := by
  have hbytes : Item.bytes ∘ Item.rename f = Item.bytes := rfl
  apply List.ext_getElem
  · simp
  · intro k hk hk'
    have hk'' : k < items.length := by simpa using hk
    have hname : ∃ symbol : Symbol, items[k].name = symbol.text :=
      ⟨⟨items[k].name, hnames _ (List.getElem_mem hk'')⟩, rfl⟩
    obtain ⟨symbol, hsymbol⟩ := hname
    simp only [symbolsOf, List.getElem_mapIdx, List.getElem_map, Item.symbol, Item.rename, hsymbol,
      renameText_text, cString_eq_self symbol.zero_notMem, cString_eq_self (f symbol).zero_notMem,
      ← List.map_take, List.flatMap_map]
    rfl

/-- The objects are one, up to the names of their symbols. -/
structure SameButNames (f : Symbol → Symbol) (e e' : ELF32) : Prop where
  text : e'.secText.data = e.secText.data
  data : e'.secData.data = e.secData.data
  file : e.file.length < 2 ^ 32 → e'.file.length < 2 ^ 32 →
    ∃ c, readContents e.file = some c ∧ readContents e'.file = some (c.rename f)

/-- What such runs end in. -/
theorem Renamed.sameButNames {f : Symbol → Symbol} {names : List Symbol} {u u' : ParserState}
    (h : Renamed f names u u') (hshaped : u.elf.resolveUnresolvedInstructions.Shaped)
    (hshaped' : u'.elf.resolveUnresolvedInstructions.Shaped) :
    SameButNames f u.elf.resolveUnresolvedInstructions u'.elf.resolveUnresolvedInstructions := by
  obtain ⟨known, known', items, hnames, htables, htables'⟩ := h.tables
  have hfinal := htables.apply .resolveUnresolvedInstructions
  have hfinal' := htables'.apply .resolveUnresolvedInstructions
  simp only [Op.apply, Op.knownAfter, Op.item, Op.label, Option.toList_none, List.append_nil]
    at hfinal hfinal'
  have hdata : (items.map (Item.rename f)).flatMap Item.bytes = items.flatMap Item.bytes := by
    rw [List.flatMap_map]
    rfl
  have htext : u'.elf.resolveUnresolvedInstructions.secText.data =
      u.elf.resolveUnresolvedInstructions.secText.data := by
    rw [ELF32.text_resolveUnresolvedInstructions, ELF32.text_resolveUnresolvedInstructions]
    exact h.text.foldl_patch h.unresolved h.targets
  constructor
  case text => exact htext
  case data => rw [hfinal'.data, hfinal.data, hdata]
  case file =>
    intro hlen hlen'
    refine ⟨_, readContents_of_tables hshaped hfinal hlen, ?_⟩
    rw [readContents_of_tables hshaped' hfinal' hlen', Contents.rename, symbolsOf_rename hnames, hdata,
      Text.bytes, Text.bytes, htext]

/-- What two programs that are parsed side by side are assembled to. -/
theorem Program.assemble_of_renamed {p q : Program} {f : Symbol → Symbol} {names : List Symbol}
    (h : Alike (Renamed f names) p.parse q.parse) : Alike (SameButNames f) p.assemble q.assemble := by
  have hassemble : ∀ {p : Program} {u}, p.parse = .ok u →
      p.assemble = .ok u.elf.resolveUnresolvedInstructions := by
    intro p u hu
    rw [assemble, hu]
    rfl
  cases hu : p.parse with
  | error m =>
      obtain ⟨m', hu'⟩ := h.of_error hu
      rw [assemble, assemble, hu, hu']
      trivial
  | ok u =>
      obtain ⟨u', hu', hrenamed⟩ := h.of_ok hu
      have he := hassemble hu
      have he' := hassemble hu'
      rw [he, he']
      exact hrenamed.sameButNames (ELF32.shaped_of_reachable (reachable he))
        (ELF32.shaped_of_reachable (reachable he'))

/-- **Names do not reach the code.** If a program is given other names, and neither two names nor two
hashes become one or cease to be one, the object is what it was, up to the names in the symbol table. -/
theorem Program.assemble_rename (p : Program) (f : Symbol → Symbol) (hf : KeepsApart f p.symbols)
    (hown : p.BranchesOwn) : Alike (SameButNames f) p.assemble (p.rename f).assemble :=
  assemble_of_renamed (renamed hf hown)

/-- Branches have their own slots if all code is in `.text`. -/
theorem Program.branchesOwn_of_codeInText {p : Program} {u : ParserState} (hcode : p.CodeInText)
    (hu : p.parse = .ok u) (hlen : u.elf.secText.data.length < 2 ^ 32) : p.BranchesOwn := by
  intro pre i post label s hsplit hs _ _
  have hrun : run ParserState.step ParserState.start (pre ++ .instruction i :: post) = .ok u := hsplit ▸ hu
  obtain ⟨ws, hws⟩ := run_text (run_behind hs hrun)
  refine Or.inl ⟨hcode pre i post s hsplit hs, ?_⟩
  rw [← hws, List.length_append] at hlen
  omega

/-- The renaming that exchanges two symbols. -/
def exchanged (a b y : Symbol) : Symbol := if y = a then b else if y = b then a else y

/-- A branch forwards, with the names of its two labels exchanged. -/
theorem forward_rename : ∃ e e', forward.assemble = .ok e ∧
    (forward.rename (exchanged (sym "a") (sym "b"))).assemble = .ok e' ∧
      SameButNames (exchanged (sym "a") (sym "b")) e e' := by
  have hown : forward.BranchesOwn :=
    Program.branchesOwn_of_codeInText (Program.codeInText_of_keep rfl (by decide)) rfl (by decide)
  have hf : KeepsApart (exchanged (sym "a") (sym "b")) forward.symbols :=
    ⟨by decide +kernel, by decide +kernel⟩
  obtain ⟨e', he', h⟩ := (Program.assemble_rename forward _ hf hown).of_ok rfl
  exact ⟨_, e', rfl, he', h⟩

end RiscvAssembler
