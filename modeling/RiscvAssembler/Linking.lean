import RiscvAssembler.Renaming

/-!
# Programs behind each other

The repository has no linker, but a source can be written behind another one. That is as good as linking
them, for programs of a kind: each opens its section, names what no other one names, and refers only to its
own labels, and to each before it is recorded.

* `patch_moved`: the pass looks at distances, so that a text with its entries can be moved.
* `Behind`: the states of a run behind another program, and of the run by itself (`Behind.step`).
* `Linked`: what an object has of others.
* `Program.assemble_modules`: any number of programs behind each other.
-/

namespace RiscvAssembler

open Runs ParserState Bytes Gabi

/-! ## The pass on texts behind each other -/

/-- The entry of an instruction that has `n` words more in front of it. -/
def UnresolvedInst32.moved (n : ℕ) (entry : UnresolvedInst32) : UnresolvedInst32 :=
  { entry with
    insnNumber := entry.insnNumber + BitVec.ofNat 32 n
    pcInsnNumber := entry.pcInsnNumber + BitVec.ofNat 32 n }

section

variable {target target' : Word → Word} {front text : List Word} {entry : UnresolvedInst32}

/-- The pass takes no notice of where a distance is. -/
theorem patchedInsn_moved (insnType : InstType) (w addr pc d : Word) :
    ELF32.patchedInsn insnType w (addr + d) (pc + d) = ELF32.patchedInsn insnType w addr pc := by
  have hdistance : addr + d - (pc + d) = addr - pc := by
    apply BitVec.eq_of_toNat_eq
    simp only [BitVec.toNat_sub, BitVec.toNat_add]
    omega
  unfold ELF32.patchedInsn ELF32.resolvedEffectiveOffset
  rw [hdistance]

theorem insnNumber_moved {n m : ℕ} (hentry : entry.insnNumber.toNat < m) (hlen : n + m < 2 ^ 32) :
    (entry.moved n).insnNumber.toNat = n + entry.insnNumber.toNat := by
  rw [UnresolvedInst32.moved, BitVec.toNat_add, BitVec.toNat_ofNat]
  omega

/-- An entry of the first text. -/
theorem patch_front (htarget : target' entry.hash = target entry.hash)
    (hentry : entry.insnNumber.toNat < front.length) :
    patch target' (front ++ text) entry = patch target front entry ++ text := by
  unfold patch
  rw [htarget, List.getElem?_append_left hentry]
  split
  · rw [List.set_append_left _ _ hentry]
  · rfl

/-- An entry of the second text. -/
theorem patch_moved (htarget : target' entry.hash = target entry.hash + BitVec.ofNat 32 front.length)
    (hentry : entry.insnNumber.toNat < text.length) (hlen : front.length + text.length < 2 ^ 32) :
    patch target' (front ++ text) (entry.moved front.length) = front ++ patch target text entry := by
  have hslot := insnNumber_moved hentry hlen
  have hget : (front ++ text)[front.length + entry.insnNumber.toNat]? = text[entry.insnNumber.toNat]? := by
    rw [List.getElem?_append_right (Nat.le_add_right _ _), Nat.add_sub_cancel_left]
  unfold patch
  rw [hslot, hget]
  simp only [UnresolvedInst32.moved, htarget, patchedInsn_moved]
  split
  · rw [List.set_append_right _ _ (Nat.le_add_right _ _), Nat.add_sub_cancel_left]
  · rfl

theorem foldl_patch_front {entries : List UnresolvedInst32}
    (htarget : ∀ entry ∈ entries, target' entry.hash = target entry.hash)
    (hentries : ∀ entry ∈ entries, entry.insnNumber.toNat < front.length) :
    entries.foldl (patch target') (front ++ text) = entries.foldl (patch target) front ++ text := by
  induction entries generalizing front with
  | nil => rfl
  | cons entry entries ih =>
      obtain ⟨hfirst, htarget⟩ := List.forall_mem_cons.mp htarget
      obtain ⟨hslot, hentries⟩ := List.forall_mem_cons.mp hentries
      rw [List.foldl_cons, patch_front hfirst hslot]
      exact ih htarget (by simpa using hentries)

theorem foldl_patch_moved {entries : List UnresolvedInst32}
    (htarget : ∀ entry ∈ entries, target' entry.hash = target entry.hash + BitVec.ofNat 32 front.length)
    (hentries : ∀ entry ∈ entries, entry.insnNumber.toNat < text.length)
    (hlen : front.length + text.length < 2 ^ 32) :
    (entries.map (UnresolvedInst32.moved front.length)).foldl (patch target') (front ++ text) =
      front ++ entries.foldl (patch target) text := by
  induction entries generalizing text with
  | nil => rfl
  | cons entry entries ih =>
      obtain ⟨hfirst, htarget⟩ := List.forall_mem_cons.mp htarget
      obtain ⟨hslot, hentries⟩ := List.forall_mem_cons.mp hentries
      rw [List.map_cons, List.foldl_cons, patch_moved hfirst hslot hlen]
      exact ih htarget (by simpa using hentries) (by simpa using hlen)

end

/-! ## Programs -/

/-- The second program behind the first one. -/
def Program.append (p q : Program) : Program := ⟨p.statements ++ q.statements, by simp [p.nonempty]⟩

theorem Program.reductions_append (p q : Program) :
    (p.append q).reductions = p.reductions ++ q.reductions :=
  reductionsOf_append p.statements q.statements

theorem Program.symbols_append (p q : Program) : (p.append q).symbols = p.symbols ++ q.symbols := by
  rw [symbols, reductions_append, List.flatMap_append]
  rfl

/-- The programs use different names, which have different hashes. -/
def Program.Apart (p q : Program) : Prop :=
  ∀ a ∈ p.symbols, ∀ b ∈ q.symbols, hasher a.text ≠ hasher b.text

instance (p q : Program) : Decidable (p.Apart q) :=
  inferInstanceAs (Decidable (∀ a ∈ p.symbols, ∀ b ∈ q.symbols, hasher a.text ≠ hasher b.text))

/-- The directive that says which section the next statements are in. -/
def Directive.opens : Directive → Bool
  | .sectionData | .sectionText | .data => true
  | _ => false

/-- A reference is in `.text` and to a label that has no address yet; a label is recorded behind code. -/
def ParserState.moves (s : ParserState) (r : Reduction) : Bool :=
  match r with
  | .instruction i =>
    match i.reference with
    | some (_, label) => !s.elf.labelExists label && s.currentSection == str ".text"
    | none => true
  | r =>
    match r.records with
    | some label => s.elf.labelExists label || !s.elf.secText.data.isEmpty
    | none => true

/-- The program can be written behind others: it opens its section, and everything in it is counted from
its own first instruction. -/
def Program.movable (q : Program) : Bool :=
  (match q.reductions with
    | .directive d :: _ => d.opens
    | _ => false) && along step ParserState.moves start q.reductions

/-- The program ends in `u`, where no string waits for a label, and every entry is for a word of the
program and for a label of it. -/
structure Program.ClosedIn (p : Program) (u : ParserState) : Prop where
  parsed : p.parse = .ok u
  noString : u.tempValue = []
  inside : ∀ entry ∈ u.elf.unresolvedInstructions, entry.insnNumber.toNat < u.elf.secText.data.length
  known : ∀ entry ∈ u.elf.unresolvedInstructions, (u.elf.labelToAddr.lookup entry.hash).isSome = true

/-- The program is complete in itself. -/
def Program.Closed (p : Program) : Prop := ∃ u, p.ClosedIn u

/-! ## What a program names -/

section

variable {p : Program} {u : ParserState}

theorem exists_symbol_of_records {r : Reduction} {l : Str} (h : r.records = some l) :
    ∃ symbol ∈ r.symbols, symbol.text = l := by
  rcases Renamed.records_rename id r with ⟨symbol, hmem, hrecords, -⟩ | ⟨hnone, -⟩
  · exact ⟨symbol, hmem, Option.some.inj (hrecords.symm.trans h)⟩
  · cases hnone.symm.trans h

theorem exists_symbol_of_reference {i : Instruction} {insnType : InstType} {l : Str}
    (h : i.reference = some (insnType, l)) : ∃ symbol ∈ i.symbols, symbol.text = l := by
  cases i with
  | branch op rs1 rs2 symbol =>
      cases h
      exact ⟨symbol, List.mem_cons_self, rfl⟩
  | psuedo p =>
      cases p with
      | jump symbol =>
          cases h
          exact ⟨symbol, List.mem_cons_self, rfl⟩
      | _ => cases h
  | _ => cases h

theorem exists_symbol_of_operand {r : Reduction} {l : Str} (h : r.symbolOperand = some l) :
    ∃ symbol ∈ r.symbols, symbol.text = l := by
  cases r with
  | instruction i =>
      cases i with
      | iType op rd rs1 imm =>
          cases imm with
          | symbol symbol =>
              cases h
              exact ⟨symbol, List.mem_cons_self, rfl⟩
          | _ => cases h
      | _ => cases h
  | _ => cases h

/-- The names of a reduction are names of the program. -/
theorem Program.mem_symbols {r : Reduction} (hr : r ∈ p.reductions) {symbol : Symbol}
    (h : symbol ∈ r.symbols) : symbol ∈ p.symbols :=
  List.mem_flatMap.mpr ⟨r, hr, h⟩

/-- The pass finds addresses for hashes of the program's names only. -/
theorem Program.exists_symbol_of_addr (hu : p.parse = .ok u) {hash addr : Word}
    (h : u.elf.labelToAddr.lookup hash = some addr) : ∃ symbol ∈ p.symbols, hasher symbol.text = hash := by
  rw [labelToAddr_lookup hu] at h
  obtain ⟨l, hl, -⟩ := Option.bind_eq_some_iff.mp h
  obtain ⟨hmem, hhash⟩ := List.mem_filter.mp (List.mem_of_getLast? hl)
  obtain ⟨r, hr, hrecords⟩ := List.mem_filterMap.mp (List.mem_eraseDups.mp hmem)
  obtain ⟨symbol, hsymbol, rfl⟩ := exists_symbol_of_records hrecords
  exact ⟨symbol, mem_symbols hr hsymbol, of_decide_eq_true hhash⟩

/-- The entries are for names of the program. -/
theorem Program.exists_symbol_of_entry (hu : p.parse = .ok u) {entry : UnresolvedInst32}
    (hentry : entry ∈ u.elf.unresolvedInstructions) :
    ∃ symbol ∈ p.symbols, hasher symbol.text = entry.hash := by
  obtain ⟨pre, i, post, s, insnType, label, hsplit, -, href, -, rfl⟩ := exists_of_mem_unresolved hu hentry
  obtain ⟨symbol, hsymbol, rfl⟩ := exists_symbol_of_reference href
  have hr : Reduction.instruction i ∈ p.reductions := by
    rw [hsplit]
    exact List.mem_append_right _ List.mem_cons_self
  exact ⟨symbol, mem_symbols hr hsymbol, rfl⟩

/-- A name that is none of the program's is unknown at its end. -/
theorem Program.unknown_of_apart (hu : p.parse = .ok u) {symbol : Symbol}
    (h : ∀ a ∈ p.symbols, hasher a.text ≠ hasher symbol.text) :
    u.elf.labelExists symbol.text = false ∧ u.elf.labelToAddr.lookup (hasher symbol.text) = none ∧
      u.symbolValue symbol.text = none := by
  refine ⟨?_, ?_, ?_⟩
  · rw [← Bool.not_eq_true, labelExists_iff hu]
    rintro ⟨r, hr, hrecords⟩
    obtain ⟨a, ha, heq⟩ := exists_symbol_of_records hrecords
    exact h a (mem_symbols hr ha) (congrArg hasher heq)
  · rw [Option.eq_none_iff_forall_ne_some]
    intro addr haddr
    obtain ⟨a, ha, heq⟩ := exists_symbol_of_addr hu haddr
    exact h a ha heq
  · rw [← Option.not_isSome_iff_eq_none, ← symbolExists_eq, symbolExists_iff hu]
    rintro ⟨r, hr, hoperand⟩
    obtain ⟨a, ha, heq⟩ := exists_symbol_of_operand hoperand
    exact h a (mem_symbols hr ha) (congrArg hasher heq)

end

/-! ## The two runs -/

/-- The states of a run behind a program that ended in `u`, with the given names and items, and of the run
by itself. -/
structure Behind (u : ParserState) (front names : List Symbol) (items : List Item)
    (s s' : ParserState) : Prop where
  tempValue : s'.tempValue = s.tempValue
  currentSection : s'.currentSection = s.currentSection
  text : s'.elf.secText.data = u.elf.secText.data ++ s.elf.secText.data
  unresolved : s'.elf.unresolvedInstructions = u.elf.unresolvedInstructions ++
    s.elf.unresolvedInstructions.map (UnresolvedInst32.moved u.elf.secText.data.length)
  labels : ∀ l ∈ names, s'.elf.labelExists l.text = s.elf.labelExists l.text
  addrs : ∀ l ∈ names, s'.elf.labelToAddr.lookup (hasher l.text) =
    (s.elf.labelToAddr.lookup (hasher l.text)).map (· + BitVec.ofNat 32 u.elf.secText.data.length)
  kept : ∀ l ∈ front, s'.elf.labelToAddr.lookup (hasher l.text) = u.elf.labelToAddr.lookup (hasher l.text)
  symbolValue : ∀ y ∈ names, s'.symbolValue y.text = s.symbolValue y.text
  tables : ∃ known known' more, s.elf.Tables known more ∧ s'.elf.Tables known' (items ++ more)

namespace Behind

variable {u s s' t t' : ParserState} {front names : List Symbol} {items : List Item}

/-! ### Instructions -/

section

variable {i : Instruction}

/-- No label to which the instruction refers has an address. -/
theorem referencesAgree (h : Behind u front names items s s') (hi : ∀ y ∈ i.symbols, y ∈ names)
    (hmoves : s.moves (.instruction i) = true) : ReferencesAgree s s' i := by
  intro insnType l href
  obtain ⟨symbol, hsymbol, rfl⟩ := exists_symbol_of_reference href
  have hnew : s.elf.labelExists symbol.text = false := by
    simp only [moves, href, Bool.and_eq_true, Bool.not_eq_true'] at hmoves
    exact hmoves.1
  have hnew' : s'.elf.labelExists symbol.text = false := (h.labels symbol (hi symbol hsymbol)).trans hnew
  rw [s.elf.labelExists_eq_false.mp hnew, s'.elf.labelExists_eq_false.mp hnew']

/-- The words are the same. -/
theorem emitted (h : Behind u front names items s s') (hi : ∀ y ∈ i.symbols, y ∈ names)
    (hmoves : s.moves (.instruction i) = true) : emitted s' i = emitted s i := by
  refine emitted_congr (h.referencesAgree hi hmoves) fun y hy => ?_
  obtain ⟨symbol, hsymbol, rfl⟩ := exists_symbol_of_operand (r := .instruction i) hy
  exact h.symbolValue symbol (hi symbol hsymbol)

/-- The entries are the same, but for where they are. -/
theorem pended (h : Behind u front names items s s') (hi : ∀ y ∈ i.symbols, y ∈ names)
    (hmoves : s.moves (.instruction i) = true) :
    pended s' i = (pended s i).map (UnresolvedInst32.moved u.elf.secText.data.length) := by
  unfold ParserState.pended
  cases href : i.reference with
  | none => rfl
  | some ref =>
      obtain ⟨insnType, l⟩ := ref
      obtain ⟨symbol, hsymbol, rfl⟩ := exists_symbol_of_reference href
      have hsection : s.currentSection = str ".text" := by
        simp only [moves, href, Bool.and_eq_true, beq_iff_eq] at hmoves
        exact hmoves.2
      simp only [h.labels symbol (hi symbol hsymbol)]
      split_ifs
      · rfl
      · have hone : (1 : BitVec 64).toNat = 1 := rfl
        simp only [pendingEntry, h.currentSection, hsection, ELF32.getNextInsnNumber, if_true,
          Text.nextIndex, h.text, List.length_append, List.map_cons, List.map_nil, UnresolvedInst32.moved]
        congr 2
        · apply BitVec.eq_of_toNat_eq
          simp only [BitVec.toNat_setWidth, BitVec.toNat_ofNat, BitVec.toNat_add]
          omega
        · apply BitVec.eq_of_toNat_eq
          simp only [BitVec.toNat_setWidth, BitVec.toNat_ofNat, BitVec.toNat_add, BitVec.toNat_sub, hone]
          omega

end

/-! ### Labels and tables -/

section

variable {r : Reduction}

/-- A label is recorded for the last word, wherever that is. -/
theorem labelAddr (h : Behind u front names items s s') (htext : s.elf.secText.data ≠ []) :
    s'.labelAddr = s.labelAddr + BitVec.ofNat 32 u.elf.secText.data.length := by
  have hpos := List.length_pos_of_ne_nil htext
  apply BitVec.eq_of_toNat_eq
  rw [ParserState.labelAddr, ParserState.labelAddr, Text.lastIndex_eq, Text.lastIndex_eq, h.text,
    List.length_append, BitVec.toNat_add, BitVec.toNat_ofNat, BitVec.toNat_ofNat, BitVec.toNat_ofNat]
  omega

/-- The labels after a reduction. -/
theorem labels_step (hapart : ∀ a ∈ front, ∀ b ∈ names, hasher a.text ≠ hasher b.text)
    (h : Behind u front names items s s') (hr : ∀ y ∈ r.symbols, y ∈ names) (hmoves : s.moves r = true)
    (ht : step s r = .ok t) (ht' : step s' r = .ok t') :
    (∀ l ∈ names, t'.elf.labelExists l.text = t.elf.labelExists l.text) ∧
      (∀ l ∈ names, t'.elf.labelToAddr.lookup (hasher l.text) =
        (t.elf.labelToAddr.lookup (hasher l.text)).map (· + BitVec.ofNat 32 u.elf.secText.data.length)) ∧
      ∀ l ∈ front, t'.elf.labelToAddr.lookup (hasher l.text) =
        u.elf.labelToAddr.lookup (hasher l.text) := by
  refine ⟨?_, ?_⟩
  · intro l hl
    rw [Bool.eq_iff_iff, step_labelExists ht', step_labelExists ht, h.labels l hl]
  · have hkept : (∀ l, r.records = some l → s.elf.labelExists l = true) →
        t.elf.labelToAddr = s.elf.labelToAddr ∧ t'.elf.labelToAddr = s'.elf.labelToAddr := by
      intro hold
      constructor
      · rcases step_labels ht with ⟨l, hl, hnew, -⟩ | ⟨-, -, haddr⟩
        · cases (hold l hl).symm.trans hnew
        · exact haddr
      · rcases step_labels ht' with ⟨l, hl, hnew, -⟩ | ⟨-, -, haddr⟩
        · obtain ⟨symbol, hsymbol, rfl⟩ := exists_symbol_of_records hl
          cases ((h.labels symbol (hr symbol hsymbol)).trans (hold _ hl)).symm.trans hnew
        · exact haddr
    rcases step_labels ht with ⟨l, hl, hnew, -, haddr⟩ | ⟨hold, -, -⟩
    · obtain ⟨symbol, hsymbol, rfl⟩ := exists_symbol_of_records hl
      have hmem := hr symbol hsymbol
      have htext : s.elf.secText.data ≠ [] := by
        cases r with
        | instruction i => cases hl
        | _ =>
            simp only [moves, hl, hnew, Bool.false_or, Bool.not_eq_true', List.isEmpty_eq_false_iff]
              at hmoves
            exact hmoves
      rcases step_labels ht' with ⟨l', hl', -, -, haddr'⟩ | ⟨hold', -, -⟩
      · obtain rfl := Option.some.inj (hl.symm.trans hl')
        rw [haddr, haddr', h.labelAddr htext]
        constructor
        · intro l hl
          by_cases hhash : hasher l.text = hasher symbol.text
          · rw [hhash, AList.lookup_insert, AList.lookup_insert, Option.map_some]
          · rw [AList.lookup_insert_ne hhash, AList.lookup_insert_ne hhash]
            exact h.addrs l hl
        · intro l hl
          rw [AList.lookup_insert_ne (hapart l hl symbol hmem)]
          exact h.kept l hl
      · cases ((h.labels symbol hmem).symm.trans (hold' _ hl)).symm.trans hnew
    · obtain ⟨haddr, haddr'⟩ := hkept hold
      rw [haddr, haddr']
      exact ⟨h.addrs, h.kept⟩

/-- A label in both tables. -/
theorem tables_initLabel (h : Behind u front names items s s') {symbol : Symbol} (hmem : symbol ∈ names)
    (isGlobal : Bool) (sectionName : Str) :
    ∃ known known' more, (s.elf.initLabel symbol.text isGlobal sectionName).Tables known more ∧
      (s'.elf.initLabel symbol.text isGlobal sectionName).Tables known' (items ++ more) := by
  obtain ⟨known, known', more, htables, htables'⟩ := h.tables
  have hinit := htables.initLabel symbol.text isGlobal sectionName
  have hinit' := htables'.initLabel symbol.text isGlobal sectionName
  have hknown : symbol.text ∈ known' ↔ symbol.text ∈ known := by
    rw [← htables.known, ← htables'.known, h.labels symbol hmem]
  simp only [hknown, List.append_assoc] at hinit'
  exact ⟨_, _, _, hinit, hinit'⟩

/-- The tables after a reduction. -/
theorem tables_step (h : Behind u front names items s s') (hr : ∀ y ∈ r.symbols, y ∈ names)
    (ht : step s r = .ok t) (ht' : step s' r = .ok t') :
    ∃ known known' more, t.elf.Tables known more ∧ t'.elf.Tables known' (items ++ more) := by
  obtain ⟨known, known', more, htables, htables'⟩ := h.tables
  cases r with
  | instruction i =>
      have hi := step_instruction ht
      have hi' := step_instruction ht'
      exact ⟨known, known', more,
        htables.of_kept hi.resolvedLabels hi.sectionToIdx hi.strtab hi.secData hi.symtab,
        htables'.of_kept hi'.resolvedLabels hi'.sectionToIdx hi'.strtab hi'.secData hi'.symtab⟩
  | labelInstructions label =>
      cases ht
      cases ht'
      simp only [labelInstructionsAction, h.currentSection]
      exact h.tables_initLabel (hr label List.mem_cons_self) _ _
  | labelDirective label =>
      cases ht
      cases ht'
      simp only [labelDirectiveAction, h.tempValue, h.currentSection]
      split_ifs
      · have hdata' := htables'.addProgramData label.text s.tempValue s.currentSection
        rw [List.append_assoc] at hdata'
        exact ⟨known, known', _, htables.addProgramData label.text s.tempValue s.currentSection, hdata'⟩
      · exact ⟨known, known', more, htables, htables'⟩
  | directive d =>
      cases ht
      cases ht'
      cases d with
      | global symbol =>
          simp only [directiveAction, ELF32.updateLabelVisibility_eq]
          exact h.tables_initLabel (hr symbol List.mem_cons_self) _ _
      | _ => exact ⟨known, known', more, htables, htables'⟩

/-- **One reduction, in both runs.** -/
theorem step (hapart : ∀ a ∈ front, ∀ b ∈ names, hasher a.text ≠ hasher b.text)
    (h : Behind u front names items s s') (hr : ∀ y ∈ r.symbols, y ∈ names) (hmoves : s.moves r = true) :
    Alike (Behind u front names items) (ParserState.step s r) (ParserState.step s' r) := by
  have hkeeps : KeepsApart id names := ⟨fun _ _ _ _ heq => heq, fun _ _ _ _ => Iff.rfl⟩
  have hglobals : ∀ {t t'}, ParserState.step s r = .ok t → ParserState.step s' r = .ok t' →
      t'.tempValue = t.tempValue ∧ t'.currentSection = t.currentSection := by
    intro t t' ht ht'
    rw [← r.rename_id] at ht'
    exact globals_rename h.tempValue h.currentSection ht ht'
  cases r with
  | instruction i =>
      apply alike_of_ok_iff
      · exact (step_instruction_ok_iff s i).trans
          ((accepted_congr (h.referencesAgree hr hmoves)).symm.trans (step_instruction_ok_iff s' i).symm)
      · intro t t' ht ht'
        obtain ⟨htemp, hsection⟩ := hglobals ht ht'
        obtain ⟨hlabels, haddrs, hkept⟩ := h.labels_step hapart hr hmoves ht ht'
        have htables := h.tables_step hr ht ht'
        have hdone := step_instruction ht
        have hdone' := step_instruction ht'
        refine ⟨htemp, hsection, ?_, ?_, hlabels, haddrs, hkept, ?_, htables⟩
        · rw [hdone.text, hdone'.text, h.text, h.emitted hr hmoves, List.append_assoc]
        · rw [hdone.unresolved, hdone'.unresolved, h.unresolved, h.pended hr hmoves, List.map_append,
            List.append_assoc]
        · rw [← i.rename_id] at ht'
          exact symbolValue_rename hkeeps h.symbolValue hr ht ht'
  | _ =>
      refine alike_of_ok_iff (iff_of_true ⟨_, rfl⟩ ⟨_, rfl⟩) ?_
      intro t t' ht ht'
      obtain ⟨htemp, hsection⟩ := hglobals ht ht'
      obtain ⟨hlabels, haddrs, hkept⟩ := h.labels_step hapart hr hmoves ht ht'
      obtain ⟨htext, hunresolved, hsymbols⟩ := step_kept ht (by simp)
      obtain ⟨htext', hunresolved', hsymbols'⟩ := step_kept ht' (by simp)
      refine ⟨htemp, hsection, ?_, ?_, hlabels, haddrs, hkept, ?_, h.tables_step hr ht ht'⟩
      · rw [htext, htext', h.text]
      · rw [hunresolved, hunresolved', h.unresolved]
      · intro y hy
        rw [ParserState.symbolValue, ParserState.symbolValue, hsymbols, hsymbols']
        exact h.symbolValue y hy

end

/-! ### Whole programs -/

section

variable {p q : Program} {v w : ParserState}

/-- A directive that opens a section makes the two states alike. -/
theorem opened (hu : p.parse = .ok u) (hnoString : u.tempValue = []) (hapart : p.Apart q) {known : List Str}
    (htables : u.elf.Tables known items) {d : Directive} (hd : d.opens = true) :
    Behind u p.symbols q.symbols items (start.directiveAction d) (u.directiveAction d) := by
  have hunknown := fun l (hl : l ∈ q.symbols) => Program.unknown_of_apart hu fun a ha => hapart a ha l hl
  have hlabels : ∀ l ∈ q.symbols, u.elf.labelExists l.text = start.elf.labelExists l.text :=
    fun l hl => (hunknown l hl).1.trans (labelExists_start l.text).symm
  have htables' : ∃ known known' more, start.elf.Tables known more ∧
      u.elf.Tables known' (items ++ more) :=
    ⟨[], known, [], ELF32.tables_init, (List.append_nil items).symm ▸ htables⟩
  have hboth : ∀ {s s'}, s.elf = start.elf → s'.elf = u.elf → s'.tempValue = s.tempValue →
      s'.currentSection = s.currentSection → Behind u p.symbols q.symbols items s s' := by
    intro s s' hs hs' htemp hsection
    refine ⟨htemp, hsection, ?_, ?_, ?_, ?_, ?_, ?_, ?_⟩
    · rw [hs, hs']
      exact (List.append_nil _).symm
    · rw [hs, hs']
      exact (List.append_nil _).symm
    · rw [hs, hs']
      exact hlabels
    · rw [hs, hs']
      exact fun l hl => (hunknown l hl).2.1
    · rw [hs']
      exact fun _ _ => rfl
    · simp only [ParserState.symbolValue, hs, hs']
      exact fun y hy => (hunknown y hy).2.2
    · rw [hs, hs']
      exact htables'
  cases d with
  | sectionData => exact hboth rfl rfl hnoString rfl
  | sectionText => exact hboth rfl rfl hnoString rfl
  | data => exact hboth rfl rfl hnoString rfl
  | _ => cases hd

/-- **A program behind another one**, and by itself. -/
theorem runs (hu : p.parse = .ok u) (hnoString : u.tempValue = []) (hapart : p.Apart q) {known : List Str}
    (htables : u.elf.Tables known items) (hq : q.movable = true) :
    Alike (Behind u p.symbols q.symbols items) q.parse (p.append q).parse := by
  have hrun : (p.append q).parse = run ParserState.step u q.reductions := by
    rw [Program.parse, parseReductions, Program.reductions_append, run_append]
    exact congrArg (fun x => Except.bind x fun t => run ParserState.step t q.reductions) hu
  rw [hrun, Program.parse, parseReductions]
  rw [Program.movable, Bool.and_eq_true] at hq
  obtain ⟨hopens, halong⟩ := hq
  split at hopens
  · next d rest hreductions =>
    rw [hreductions] at halong ⊢
    have hrest : along ParserState.step ParserState.moves (start.directiveAction d) rest = true :=
      (Bool.and_eq_true_iff.mp halong).2
    have hboth := opened hu hnoString hapart htables hopens
    show Alike _ (run ParserState.step (start.directiveAction d) rest)
      (run ParserState.step (u.directiveAction d) rest)
    refine run_along hrest ?_ hboth
    intro s s' r hr hmoves h
    refine h.step hapart (fun y hy => ?_) hmoves
    refine Program.mem_symbols ?_ hy
    rw [hreductions]
    exact List.mem_cons_of_mem _ hr
  · cases hopens

/-- **The code of both**, after the pass. -/
theorem text_resolve (h : Behind u p.symbols q.symbols items v w) (hu : p.ClosedIn u) (hv : q.ClosedIn v)
    (hlen : u.elf.secText.data.length + v.elf.secText.data.length < 2 ^ 32) :
    w.elf.resolveUnresolvedInstructions.secText.data =
      u.elf.resolveUnresolvedInstructions.secText.data ++
        v.elf.resolveUnresolvedInstructions.secText.data := by
  simp only [ELF32.text_resolveUnresolvedInstructions]
  have hfront : ∀ entry ∈ u.elf.unresolvedInstructions,
      w.elf.target entry.hash = u.elf.target entry.hash := by
    intro entry hentry
    obtain ⟨symbol, hsymbol, hhash⟩ := Program.exists_symbol_of_entry hu.parsed hentry
    rw [ELF32.target, ELF32.target, ← hhash, h.kept symbol hsymbol]
  have hmoved : ∀ entry ∈ v.elf.unresolvedInstructions, w.elf.target entry.hash =
      v.elf.target entry.hash + BitVec.ofNat 32 u.elf.secText.data.length := by
    intro entry hentry
    obtain ⟨symbol, hsymbol, hhash⟩ := Program.exists_symbol_of_entry hv.parsed hentry
    obtain ⟨addr, haddr⟩ := Option.isSome_iff_exists.mp (hv.known entry hentry)
    rw [ELF32.target, ELF32.target, ← hhash, h.addrs symbol hsymbol, hhash, haddr]
    rfl
  have hlength := length_foldl_patch u.elf.target u.elf.unresolvedInstructions u.elf.secText.data
  rw [h.unresolved, h.text, List.foldl_append, foldl_patch_front hfront hu.inside]
  rw [← hlength] at hmoved hlen ⊢
  exact foldl_patch_moved hmoved hv.inside hlen

/-- Both together are closed. -/
theorem closed (h : Behind u p.symbols q.symbols items v w) (hw : (p.append q).parse = .ok w)
    (hu : p.ClosedIn u) (hv : q.ClosedIn v)
    (hlen : u.elf.secText.data.length + v.elf.secText.data.length < 2 ^ 32) :
    (p.append q).ClosedIn w := by
  constructor
  case parsed => exact hw
  case noString => rw [h.tempValue, hv.noString]
  case inside =>
    intro entry hentry
    rw [h.text, List.length_append]
    rw [h.unresolved, List.mem_append, List.mem_map] at hentry
    rcases hentry with hentry | ⟨entry, hentry, rfl⟩
    · have hslot := hu.inside entry hentry
      omega
    · have hslot := hv.inside entry hentry
      rw [insnNumber_moved hslot hlen]
      omega
  case known =>
    intro entry hentry
    rw [h.unresolved, List.mem_append, List.mem_map] at hentry
    rcases hentry with hentry | ⟨entry, hentry, rfl⟩
    · obtain ⟨symbol, hsymbol, hhash⟩ := Program.exists_symbol_of_entry hu.parsed hentry
      rw [← hhash, h.kept symbol hsymbol, hhash]
      exact hu.known entry hentry
    · obtain ⟨symbol, hsymbol, hhash⟩ := Program.exists_symbol_of_entry hv.parsed hentry
      obtain ⟨addr, haddr⟩ := Option.isSome_iff_exists.mp (hv.known entry hentry)
      have hlookup := h.addrs symbol hsymbol
      rw [hhash, haddr, Option.map_some] at hlookup
      exact Option.isSome_iff_exists.mpr ⟨_, hlookup⟩

end

end Behind

/-! ## Any number of programs -/

/-- The programs behind each other. -/
def Program.joined (p : Program) (qs : List Program) : Program := qs.foldl append p

theorem Program.Apart.append {p q r : Program} (hp : p.Apart r) (hq : q.Apart r) : (p.append q).Apart r := by
  intro a ha
  rw [symbols_append, List.mem_append] at ha
  exact ha.elim (hp a) (hq a)

/-- What a linker reads in the file of the object are the code and these items. -/
def ELF32.ReadAs (e : ELF32) (items : List Item) : Prop :=
  e.file.length < 2 ^ 32 →
    readContents e.file = some ⟨e.secText.bytes .le, items.flatMap Item.bytes, symbolsOf items⟩

/-- The object has the code, the data and the symbols of the others, in their order. -/
structure Linked (es : List ELF32) (e : ELF32) : Prop where
  text : e.secText.data = es.flatMap fun e => e.secText.data
  data : e.secData.data = es.flatMap fun e => e.secData.data
  file : ∃ itemss, List.Forall₂ ELF32.ReadAs es itemss ∧ e.ReadAs itemss.flatten

/-- The tables of the object hold the items. -/
structure ELF32.HasItems (e : ELF32) (items : List Item) : Prop where
  shaped : e.Shaped
  tables : ∃ known, e.Tables known items

namespace ELF32.HasItems

variable {e : ELF32} {items : List Item}

theorem resolve (h : e.HasItems items) : e.resolveUnresolvedInstructions.HasItems items := by
  obtain ⟨known, htables⟩ := h.tables
  have hfinal := htables.apply .resolveUnresolvedInstructions
  simp only [Op.apply, Op.knownAfter, Op.item, Op.label, Option.toList_none, List.append_nil] at hfinal
  exact ⟨h.shaped.apply .resolveUnresolvedInstructions, known, hfinal⟩

theorem data (h : e.HasItems items) : e.secData.data = items.flatMap Item.bytes := by
  obtain ⟨known, htables⟩ := h.tables
  exact htables.data

theorem readAs (h : e.HasItems items) : e.ReadAs items := by
  obtain ⟨known, htables⟩ := h.tables
  exact readContents_of_tables h.shaped htables

/-- The data of several objects. -/
theorem flatMap_data {es : List ELF32} {itemss : List (List Item)}
    (h : List.Forall₂ ELF32.HasItems es itemss) :
    (es.flatMap fun e => e.secData.data) = itemss.flatten.flatMap Item.bytes := by
  induction h with
  | nil => rfl
  | cons he _ ih => rw [List.flatMap_cons, he.data, ih, List.flatten_cons, List.flatMap_append]

end ELF32.HasItems

/-- The objects, and the state at the end of their programs behind each other. -/
structure Collected (es : List ELF32) (w : ParserState) : Prop where
  text : w.elf.resolveUnresolvedInstructions.secText.data = es.flatMap fun e => e.secText.data
  tables : ∃ itemss, List.Forall₂ ELF32.HasItems es itemss ∧ w.elf.HasItems itemss.flatten

section

variable {p q : Program} {u v w : ParserState} {es : List ELF32}

theorem Program.ClosedIn.assemble (h : p.ClosedIn u) :
    p.assemble = .ok u.elf.resolveUnresolvedInstructions := by
  rw [Program.assemble, h.parsed]
  rfl

theorem Program.reachable_of_parse (hu : p.parse = .ok u) : u.elf.Reachable :=
  run_invariant (fun s : ParserState => s.elf.Reachable) (fun _ _ _ => step_reachable) ⟨[], rfl⟩ hu

theorem Program.ClosedIn.length_text (h : p.ClosedIn u) : p.text.length = u.elf.secText.data.length := by
  rw [text_eq h.assemble, ELF32.text_resolveUnresolvedInstructions, length_foldl_patch]

/-- The object that is serialized in the end. -/
theorem Collected.linked (h : Collected es w) : Linked es w.elf.resolveUnresolvedInstructions := by
  obtain ⟨itemss, hitemss, hall⟩ := h.tables
  refine ⟨h.text, ?_, itemss, hitemss.imp fun _ _ he => he.readAs, hall.resolve.readAs⟩
  rw [ELF32.HasItems.flatMap_data hitemss]
  exact hall.resolve.data

/-- One program more. -/
theorem Collected.append (h : Collected es u) (hu : p.ClosedIn u) (hv : q.ClosedIn v) (hapart : p.Apart q)
    (hq : q.movable = true) (hlen : u.elf.secText.data.length + v.elf.secText.data.length < 2 ^ 32) :
    ∃ w, (p.append q).ClosedIn w ∧ Collected (es ++ [v.elf.resolveUnresolvedInstructions]) w ∧
      w.elf.secText.data.length = u.elf.secText.data.length + v.elf.secText.data.length := by
  obtain ⟨itemss, hitemss, -, known, htables⟩ := h.tables
  obtain ⟨w, hw, hbehind⟩ := (Behind.runs hu.parsed hu.noString hapart htables hq).of_ok hv.parsed
  refine ⟨w, hbehind.closed hw hu hv hlen, ⟨?_, ?_⟩, by rw [hbehind.text, List.length_append]⟩
  · rw [hbehind.text_resolve hu hv hlen, h.text, List.flatMap_append, List.flatMap_singleton]
  · obtain ⟨known', known'', more, hmore, hall⟩ := hbehind.tables
    have hone : v.elf.HasItems more :=
      ⟨ELF32.shaped_of_reachable (Program.reachable_of_parse hv.parsed), known', hmore⟩
    rw [← List.flatten_singleton (l := more), ← List.flatten_append] at hall
    exact ⟨itemss ++ [more], List.rel_append hitemss (.cons hone.resolve .nil),
      ELF32.shaped_of_reachable (Program.reachable_of_parse hw), known'', hall⟩

/-- **Any number of programs more.** -/
theorem Collected.joined {qs : List Program} (h : Collected es u) (hu : p.ClosedIn u)
    (hqs : ∀ q ∈ qs, q.Closed ∧ q.movable = true) (hp : ∀ q ∈ qs, p.Apart q)
    (hapart : qs.Pairwise Program.Apart)
    (hlen : u.elf.secText.data.length + (qs.map fun q => q.text.length).sum < 2 ^ 32) :
    ∃ w es', (p.joined qs).ClosedIn w ∧ List.Forall₂ (fun q e => q.assemble = .ok e) qs es' ∧
      Collected (es ++ es') w := by
  induction qs generalizing p u es with
  | nil => exact ⟨u, [], hu, .nil, by rwa [List.append_nil]⟩
  | cons q qs ih =>
      obtain ⟨⟨⟨v, hv⟩, hmovable⟩, hqs⟩ := List.forall_mem_cons.mp hqs
      obtain ⟨hpq, hp⟩ := List.forall_mem_cons.mp hp
      obtain ⟨hq, hapart⟩ := List.pairwise_cons.mp hapart
      rw [List.map_cons, List.sum_cons, hv.length_text] at hlen
      obtain ⟨w, hw, hcollected, hlength⟩ := h.append hu hv hpq hmovable (by omega)
      obtain ⟨w', es', hw', hes', hall⟩ :=
        ih hcollected hw hqs (fun r hr => (hp r hr).append (hq r hr)) hapart (by omega)
      refine ⟨w', v.elf.resolveUnresolvedInstructions :: es', hw', .cons hv.assemble hes', ?_⟩
      rwa [List.append_assoc, List.singleton_append] at hall

end

/-- **Writing closed programs behind each other is linking them**, if they can be moved and use different
names: the object has what the objects of the programs have, each with the words that it has by itself. -/
theorem Program.assemble_modules (p : Program) (qs : List Program) (hclosed : ∀ q ∈ p :: qs, q.Closed)
    (hmovable : ∀ q ∈ qs, q.movable = true) (hapart : (p :: qs).Pairwise Program.Apart)
    (hlen : ((p :: qs).map fun q => q.text.length).sum < 2 ^ 32) :
    ∃ e es, (p.joined qs).assemble = .ok e ∧ List.Forall₂ (fun q e => q.assemble = .ok e) (p :: qs) es ∧
      Linked es e := by
  obtain ⟨⟨u, hu⟩, hclosed⟩ := List.forall_mem_cons.mp hclosed
  obtain ⟨hp, hapart⟩ := List.pairwise_cons.mp hapart
  rw [List.map_cons, List.sum_cons, hu.length_text] at hlen
  have hreach := reachable_of_parse hu.parsed
  obtain ⟨known, items, htables⟩ : ∃ known items, u.elf.Tables known items := by
    obtain ⟨ops, hops⟩ := hreach
    exact ⟨_, _, hops ▸ ELF32.tables_build ops⟩
  have hitems : u.elf.HasItems items := ⟨ELF32.shaped_of_reachable hreach, known, htables⟩
  have hstart : Collected [u.elf.resolveUnresolvedInstructions] u :=
    ⟨by rw [List.flatMap_singleton], [items], .cons hitems.resolve .nil,
      by rwa [List.flatten_singleton]⟩
  obtain ⟨w, es, hw, hes, hcollected⟩ :=
    hstart.joined hu (fun q hq => ⟨hclosed q hq, hmovable q hq⟩) hp hapart hlen
  exact ⟨_, _, hw.assemble, .cons hu.assemble hes, hcollected.linked⟩

/-- A string with a name. -/
def greeting : Program :=
  program (.directive .sectionData) [.labelDirective (sym "msg") (.ascii (lit "hi"))]

/-- A branch forwards, behind another word. -/
def leaving : Program :=
  program (.directive .sectionText)
    [.labelInstructions (sym "c") (block (.rType .add 6 5 10) [.branch .beq 6 0 (sym "d")]),
      .labelInstructions (sym "d") (block (.psuedo .ret) [])]

/-- Code, data, and code again. -/
theorem forward_greeting_leaving : ∃ e es, (forward.joined [greeting, leaving]).assemble = .ok e ∧
    List.Forall₂ (fun q e => Program.assemble q = .ok e) [forward, greeting, leaving] es ∧ Linked es e := by
  refine Program.assemble_modules forward [greeting, leaving] ?_ (by decide +kernel) (by decide +kernel)
    (by decide +kernel)
  simp only [List.forall_mem_cons, List.not_mem_nil, false_implies, implies_true, and_true]
  exact ⟨⟨_, rfl, rfl, by decide +kernel, by decide +kernel⟩,
    ⟨_, rfl, rfl, by decide +kernel, by decide +kernel⟩,
    ⟨_, rfl, rfl, by decide +kernel, by decide +kernel⟩⟩

end RiscvAssembler
