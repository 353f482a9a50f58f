import RiscvAssembler.SymbolTable

/-!
# What the symbol table says of the program

* `entered_text_iff`, `exists_entered_iff`, `ascii_entered`: which entries there are for one label.
  The entry of a label in front of instructions always has the value zero, its section is the one
  current at the end of the block or the `.text` of an earlier `.globl`, and a label in front of a
  directive has an entry only if a value waits for it.
* `symtabDenotes_iff`: the table is right about every label exactly when every block is in front of
  the first word, nothing is declared that is not defined, and every label has some entry.
-/

namespace RiscvAssembler

open Runs ParserState

/-! ## The entries for one label -/

/-- The section that a reduction gives to the label it records. -/
def ParserState.sectionFor (s : ParserState) : Reduction → Str
  | .labelInstructions _ => s.currentSection
  | _ => str ".text"

/-- The label is recorded for the first time with `.text` as its section. -/
def Program.RecordedInText (p : Program) (l : Str) : Prop :=
  ∃ r s, p.Meets r s ∧ r.records = some l ∧ s.elf.labelExists l = false ∧
    s.sectionFor r = str ".text"

/-- A value waits when the label stands in front of a directive. -/
def Program.HasValue (p : Program) (l : Str) : Prop :=
  ∃ label s, p.Meets (.labelDirective label) s ∧ label.text = l ∧ s.tempValue ≠ []

/-- A value waits when the label stands in front of a directive, the section is `.text` by then, and
the value goes to the given offset. -/
def Program.HasValueInText (p : Program) (l : Str) (offset : ℕ) : Prop :=
  ∃ label s, p.Meets (.labelDirective label) s ∧ label.text = l ∧ s.tempValue ≠ [] ∧
    s.currentSection = str ".text" ∧ s.elf.secData.data.length % 2 ^ 32 = offset

section

variable {p : Program} {u : ParserState}

/-- What a reduction that records a label pushes. -/
theorem ParserState.pushedBy_of_records {s : ParserState} {r : Reduction} {l : Str}
    (hr : r.records = some l) :
    ∃ isGlobal, s.pushedBy r =
      if s.elf.labelExists l then none else some (s.labelEntry l isGlobal (s.sectionFor r)) := by
  cases r with
  | labelInstructions label => cases hr; exact ⟨false, rfl⟩
  | directive d =>
      cases d with
      | global symbol => cases hr; exact ⟨true, rfl⟩
      | _ => cases hr
  | _ => cases hr

/-- A reduction names the label that it records, or the one in front of its directive. -/
theorem Reduction.names_eq_some {r : Reduction} {l : Str} :
    r.names = some l ↔ r.records = some l ∨ ∃ label, r = .labelDirective label ∧ label.text = l := by
  cases r with
  | directive d => cases d <;> simp [names, records]
  | _ => simp [names, records]

/-- The entries for a label: the one made when the label is recorded first, and those of data. -/
theorem Program.entered_cases (hu : p.parse = .ok u) {l : Str} {sym : Elf32Sym} :
    p.Entered l sym ↔
      (∃ r s, p.Meets r s ∧ r.records = some l ∧ s.elf.labelExists l = false ∧
        s.pushedBy r = some sym) ∨
      ∃ label s, p.Meets (.labelDirective label) s ∧ label.text = l ∧ s.tempValue ≠ [] ∧
        sym = s.dataEntry l := by
  rw [entered_iff hu]
  constructor
  · rintro ⟨r, s, hmeets, hl, hsym⟩
    rcases Reduction.names_eq_some.mp hl with hr | ⟨label, rfl, hlabel⟩
    · obtain ⟨isGlobal, hpushed⟩ := s.pushedBy_of_records hr
      refine Or.inl ⟨r, s, hmeets, hr, ?_, hsym⟩
      cases hex : s.elf.labelExists l with
      | true => simp [hpushed, hex] at hsym
      | false => rfl
    · simp only [pushedBy] at hsym
      split_ifs at hsym with hv
      cases hsym
      exact Or.inr ⟨label, s, hmeets, hlabel, hv, by rw [hlabel]⟩
  · rintro (⟨r, s, hmeets, hr, -, hsym⟩ | ⟨label, s, hmeets, rfl, hv, rfl⟩)
    · exact ⟨r, s, hmeets, Reduction.names_eq_some.mpr (Or.inl hr), hsym⟩
    · exact ⟨_, s, hmeets, rfl, if_neg hv⟩

/-- A tidy parser's section for a label is `.text` iff its header index is. -/
theorem ParserState.Tidy.shndx_sectionFor {s : ParserState} (hs : s.Tidy) (r : Reduction) :
    shndx (s.sectionFor r) = textIndex ↔ s.sectionFor r = str ".text" := by
  have hcurrent : shndx s.currentSection = textIndex ↔ s.currentSection = str ".text" := by
    rcases hs.currentSection with hc | hc | hc <;> rw [hc] <;> decide
  cases r with
  | labelInstructions label => exact hcurrent
  | _ => exact iff_of_true rfl rfl

/-- **The entries in `.text` for a label** are the one of its first recording, if that is under
`.text`, with the value zero, and those of data that are labelled under `.text`. -/
theorem Program.entered_text_iff (hu : p.parse = .ok u) (l : Str) (n : ℕ) :
    (∃ sym, p.Entered l sym ∧ sym.stShndx = textIndex ∧ sym.stValue.toNat = n) ↔
      n = 0 ∧ p.RecordedInText l ∨ p.HasValueInText l n := by
  constructor
  · rintro ⟨sym, hsym, hidx, hval⟩
    rcases (entered_cases hu).mp hsym with ⟨r, s, hmeets, hr, hnew, hpushed⟩ |
      ⟨label, s, hmeets, hlabel, hv, rfl⟩
    · obtain ⟨isGlobal, heq⟩ := s.pushedBy_of_records hr
      rw [hpushed, hnew] at heq
      cases heq
      exact Or.inl ⟨hval.symm, r, s, hmeets, hr, hnew,
        ((hmeets.split hu).1.shndx_sectionFor r).mp hidx⟩
    · refine Or.inr ⟨label, s, hmeets, hlabel, hv, ?_, hval⟩
      rcases (hmeets.split hu).1.currentSection with hc | hc | hc
      · exact absurd ((hmeets.split hu).1.tempValue hc) hv
      · exact hc
      · simp only [dataEntry, hc] at hidx
        exact absurd hidx (by decide)
  · rintro (⟨rfl, r, s, hmeets, hr, hnew, hsection⟩ | ⟨label, s, hmeets, hlabel, hv, hc, hval⟩)
    · obtain ⟨isGlobal, heq⟩ := s.pushedBy_of_records hr
      rw [hnew] at heq
      refine ⟨_, (entered_cases hu).mpr (Or.inl ⟨r, s, hmeets, hr, hnew, heq⟩), ?_, rfl⟩
      exact ((hmeets.split hu).1.shndx_sectionFor r).mpr hsection
    · refine ⟨_, (entered_cases hu).mpr (Or.inr ⟨label, s, hmeets, hlabel, hv, rfl⟩), ?_, hval⟩
      simp only [dataEntry, hc]
      rfl

/-- The first of the reductions that record a label. -/
theorem Program.exists_first_record (hu : p.parse = .ok u) {r : Reduction} (hr : r ∈ p.reductions)
    {l : Str} (hl : r.records = some l) :
    ∃ r s, p.Meets r s ∧ r.records = some l ∧ s.elf.labelExists l = false := by
  have hex : u.elf.labelExists l = true := (labelExists_iff hu l).mpr ⟨r, hr, hl⟩
  have hstart : ¬ start.elf.labelExists l = true := by simp [labelExists_start]
  obtain ⟨pre, r', post, s, t, hp, hs, ht, hold, hnew⟩ :=
    run_switch (fun s : ParserState => s.elf.labelExists l = true) hstart hex hu
  refine ⟨r', s, ⟨pre, post, hp, hs⟩, ?_, by simpa using hold⟩
  rcases step_labels ht with ⟨l', hl', -, hres, -⟩ | ⟨-, hres, -⟩
  · simp only [ELF32.labelExists, hres, decide_eq_true_eq, AList.mem_insert] at hold hnew
    exact (hnew.resolve_right hold) ▸ hl'
  · simp only [ELF32.labelExists, hres] at hold hnew
    exact absurd hnew hold

/-- A label has an entry iff it is recorded or stands in front of a directive when a value waits. -/
theorem Program.exists_entered_iff (hu : p.parse = .ok u) (l : Str) :
    (∃ sym, p.Entered l sym) ↔ (∃ r ∈ p.reductions, r.records = some l) ∨ p.HasValue l := by
  constructor
  · rintro ⟨sym, hsym⟩
    rcases (entered_cases hu).mp hsym with ⟨r, s, ⟨pre, post, hp, -⟩, hr, -, -⟩ |
      ⟨label, s, hmeets, hlabel, hv, -⟩
    · exact Or.inl ⟨r, by rw [hp]; simp, hr⟩
    · exact Or.inr ⟨label, s, hmeets, hlabel, hv⟩
  · rintro (⟨r, hmem, hr⟩ | ⟨label, s, hmeets, hlabel, hv⟩)
    · obtain ⟨r', s, hmeets, hr', hnew⟩ := exists_first_record hu hmem hr
      obtain ⟨isGlobal, heq⟩ := s.pushedBy_of_records hr'
      rw [hnew] at heq
      exact ⟨_, (entered_cases hu).mpr (Or.inl ⟨r', s, hmeets, hr', hnew, heq⟩)⟩
    · exact ⟨_, (entered_cases hu).mpr (Or.inr ⟨label, s, hmeets, hlabel, hv, rfl⟩)⟩

/-- A label whose reduction occurs stands in front of a statement. -/
theorem Program.defines_of_mem {label : Symbol}
    (h : .labelInstructions label ∈ p.reductions ∨ .labelDirective label ∈ p.reductions) :
    p.Defines label.text := by
  simp only [Program.reductions, reductionsOf, List.mem_flatMap] at h
  rcases h with ⟨st, hst, hmem⟩ | ⟨st, hst, hmem⟩
  · cases st with
    | labelInstructions l b =>
        have hl : label = l := by simpa [Statement.reductions] using hmem
        exact Or.inl ⟨l, b, hst, by rw [hl]⟩
    | labelDirective l d => simp [Statement.reductions] at hmem
    | directive d => simp [Statement.reductions] at hmem
  · cases st with
    | labelInstructions l b => simp [Statement.reductions] at hmem
    | labelDirective l d =>
        have hl : label = l := by simpa [Statement.reductions] using hmem
        exact Or.inr ⟨l, d, hst, by rw [hl]⟩
    | directive d => simp [Statement.reductions] at hmem

/-- The entry of a name that is only declared is in `.text`. -/
theorem Program.Entered.shndx_of_undefined {l : Str} {sym : Elf32Sym} (h : p.Entered l sym)
    (hu : p.parse = .ok u) (hundef : ¬ p.Defines l) : sym.stShndx = textIndex := by
  rcases (entered_cases hu).mp h with ⟨r, s, ⟨pre, post, hp, -⟩, hr, hnew, hpushed⟩ |
    ⟨label, s, ⟨pre, post, hp, -⟩, hlabel, -, -⟩
  · cases r with
    | labelInstructions label =>
        cases hr
        exact absurd (defines_of_mem (Or.inl (by rw [hp]; simp))) hundef
    | directive d =>
        cases d with
        | global symbol =>
            cases hr
            rw [pushedBy, hnew] at hpushed
            cases hpushed
            rfl
        | _ => cases hr
    | _ => cases hr
  · exact absurd (hlabel ▸ defines_of_mem (Or.inr (by rw [hp]; simp))) hundef

theorem StringLit.sval_ne_nil (string : StringLit) : string.sval ≠ [] := by
  simp [sval, Bytes.cString]

/-- A labelled `.ascii` meets its label when its value waits. -/
theorem Program.meets_ascii {ss rest : List Statement} {label : Symbol} {string : StringLit}
    {s : ParserState} (hp : p.statements = ss ++ .labelDirective label (.ascii string) :: rest)
    (hs : run step start (reductionsOf ss) = .ok s) :
    p.Meets (.labelDirective label) (s.directiveAction (.ascii string)) := by
  refine ⟨reductionsOf ss ++ [.directive (.ascii string)], reductionsOf rest, ?_, ?_⟩
  · rw [Program.reductions, hp, reductionsOf_append, reductionsOf_cons]
    simp [Statement.reductions]
  · exact run_append_eq_ok.mpr ⟨s, hs, rfl⟩

/-- What `L: .ascii` does, from the state in front of it. -/
theorem Program.ascii_entered (hu : p.parse = .ok u) {ss rest : List Statement} {label : Symbol}
    {string : StringLit} {s : ParserState}
    (hp : p.statements = ss ++ .labelDirective label (.ascii string) :: rest)
    (hs : run step start (reductionsOf ss) = .ok s) :
    (∃ sym, p.Entered label.text sym ∧ sym.stShndx = dataIndex ∧
        sym.stValue = BitVec.ofNat 32 s.elf.secData.data.length) ∧
      s.elf.secData.data ++ string.sval <+: u.elf.secData.data := by
  have hmeets := meets_ascii hp hs
  have hval : string.sval ≠ [] := string.sval_ne_nil
  obtain ⟨htidy, t, post, ht, hpost⟩ := hmeets.split hu
  constructor
  · exact ⟨_, (entered_cases hu).mpr (Or.inr ⟨label, _, hmeets, rfl, hval, rfl⟩), rfl, rfl⟩
  · have htabled := step_tabled htidy ht
    have hdata : t.elf.secData.data = s.elf.secData.data ++ string.sval := htabled.secData
    exact hdata ▸ run_data htabled.tidy hpost

end

/-! ## All labels -/

/-- The symbol table of the object says what the program does: a label in front of instructions is in
`.text` at the place of the first of them, a label in front of an `.ascii` is in `.data` at the place
of its bytes, every other label in front of a directive is there, and what is only declared is
undefined. -/
structure Program.SymtabDenotes (p : Program) (e : ELF32) : Prop where
  code : ∀ ss label b rest s, p.statements = ss ++ .labelInstructions label b :: rest →
    run step start (reductionsOf ss) = .ok s →
    ∃ sym ∈ e.symtab.data, p.Entered label.text sym ∧ sym.stShndx = textIndex ∧
      sym.stValue.toNat = 4 * s.elf.secText.data.length
  ascii : ∀ ss label string rest s,
    p.statements = ss ++ .labelDirective label (.ascii string) :: rest →
    run step start (reductionsOf ss) = .ok s →
    s.elf.secData.data ++ string.sval <+: e.secData.data ∧
      ∃ sym ∈ e.symtab.data, p.Entered label.text sym ∧ sym.stShndx = dataIndex ∧
        sym.stValue.toNat = s.elf.secData.data.length
  other : ∀ label d, .labelDirective label d ∈ p.statements →
    ∃ sym ∈ e.symtab.data, p.Entered label.text sym
  undefined : ∀ symbol, .directive (.global symbol) ∈ p.reductions → ¬ p.Defines symbol.text →
    ∃ sym ∈ e.symtab.data, p.Entered symbol.text sym ∧ sym.stShndx = shnUndef

/-- What a program must be like for its symbol table to be right: every block in front of the first
word, with a label recorded first under `.text` (or, by accident, labelling data at the right offset
under `.text`); data within 32 bits; every label in front of a directive recorded or met with a
value; nothing declared that is not defined. -/
structure Program.SymtabFits (p : Program) : Prop where
  code : ∀ ss label b rest s, p.statements = ss ++ .labelInstructions label b :: rest →
    run step start (reductionsOf ss) = .ok s →
    s.elf.secText.data.length = 0 ∧ p.RecordedInText label.text ∨
      p.HasValueInText label.text (4 * s.elf.secText.data.length)
  ascii : ∀ ss label string rest s,
    p.statements = ss ++ .labelDirective label (.ascii string) :: rest →
    run step start (reductionsOf ss) = .ok s → s.elf.secData.data.length < 2 ^ 32
  other : ∀ label d, .labelDirective label d ∈ p.statements →
    (∃ r ∈ p.reductions, r.records = some label.text) ∨ p.HasValue label.text
  undefined : ∀ symbol, .directive (.global symbol) ∈ p.reductions → p.Defines symbol.text

/-- **When the symbol table says what the program does.** -/
theorem Program.symtabDenotes_iff (p : Program) (e : ELF32) (h : p.assemble = .ok e) :
    p.SymtabDenotes e ↔ p.SymtabFits := by
  obtain ⟨u, hu, hfix⟩ := bind_eq_ok.mp h
  cases hfix
  obtain ⟨hsymtab, -, hdata⟩ := u.elf.tables_resolveUnresolvedInstructions
  -- every entry of the program is in the table
  have hmem : ∀ l (P : Elf32Sym → Prop),
      (∃ sym ∈ u.elf.resolveUnresolvedInstructions.symtab.data, p.Entered l sym ∧ P sym) ↔
        ∃ sym, p.Entered l sym ∧ P sym := by
    intro l P
    refine exists_congr fun sym => and_iff_right_of_imp ?_
    intro hsym
    rw [hsymtab]
    exact (mem_symtab_iff hu).mpr (Or.inr ⟨l, hsym.1⟩)
  have hall : ∀ l, (∃ sym ∈ u.elf.resolveUnresolvedInstructions.symtab.data, p.Entered l sym) ↔
      ∃ sym, p.Entered l sym := by
    intro l
    simpa using hmem l fun _ => True
  constructor
  · intro hd
    constructor
    case code =>
      intro ss label b rest s hp hs
      have hentry := (hmem _ _).mp (hd.code ss label b rest s hp hs)
      refine ((entered_text_iff hu _ _).mp hentry).imp (And.imp_left ?_) id
      intro h0
      omega
    case ascii =>
      intro ss label string rest s hp hs
      obtain ⟨-, sym, -, -, -, hval⟩ := hd.ascii ss label string rest s hp hs
      exact hval ▸ sym.stValue.isLt
    case other =>
      intro label d hmemd
      exact (exists_entered_iff hu _).mp ((hall _).mp (hd.other label d hmemd))
    case undefined =>
      intro symbol hg
      by_contra hundef
      obtain ⟨sym, -, hsym, hidx⟩ := hd.undefined symbol hg hundef
      rw [hsym.shndx_of_undefined hu hundef] at hidx
      exact absurd hidx (by decide)
  · intro hf
    constructor
    case code =>
      intro ss label b rest s hp hs
      refine (hmem _ _).mpr ((entered_text_iff hu _ _).mpr ?_)
      exact (hf.code ss label b rest s hp hs).imp (And.imp_left fun h0 => by omega) id
    case ascii =>
      intro ss label string rest s hp hs
      have hlt := hf.ascii ss label string rest s hp hs
      obtain ⟨⟨sym, hsym, hidx, hval⟩, hbytes⟩ := ascii_entered hu hp hs
      refine ⟨hdata ▸ hbytes, (hmem _ _).mpr ⟨sym, hsym, hidx, ?_⟩⟩
      rw [hval, BitVec.toNat_ofNat, Nat.mod_eq_of_lt hlt]
    case other =>
      intro label d hmemd
      exact (hall _).mpr ((exists_entered_iff hu _).mpr (hf.other label d hmemd))
    case undefined =>
      intro symbol hg hundef
      exact absurd (hf.undefined symbol hg) hundef

/-- Source: `tests/helloworld.s`. -/
def helloworld : Program :=
  program (.directive (.global (sym "_start")))
    [.labelInstructions (sym "_start")
        (block (.iType .addi 10 0 (.imm 1))
          [.psuedo (.la 11 (sym "message")), .iType .addi 12 0 (.imm 13), .iType .addi 17 0 (.imm 64),
            .opcode .ecall, .iType .addi 10 0 (.imm 0), .iType .addi 17 0 (.imm 0x5D),
            .opcode .ecall]),
      .directive .data,
      .labelDirective (sym "message") (.ascii (lit "Hello World!\\n")),
      .labelDirective (sym "message2") (.ascii (lit "second world."))]

/-- The strings of `helloworld` are its last two statements. -/
theorem helloworld_ascii {ss rest : List Statement} {label : Symbol} {string : StringLit}
    (hp : helloworld.statements = ss ++ .labelDirective label (.ascii string) :: rest) :
    ss = helloworld.statements.take 3 ∨ ss = helloworld.statements.take 4 := by
  rcases ss with _ | ⟨_, _ | ⟨_, _ | ⟨_, _ | ⟨_, _ | ⟨_, _ | ⟨_, ss⟩⟩⟩⟩⟩⟩ <;>
    simp [helloworld, program] at hp
  · obtain ⟨rfl, rfl, rfl, -⟩ := hp
    exact Or.inl rfl
  · obtain ⟨rfl, rfl, rfl, rfl, -⟩ := hp
    exact Or.inr rfl

/-- The symbol table of `helloworld` is right: its one block is at the start. -/
theorem helloworld_symtabDenotes :
    ∃ e, helloworld.assemble = .ok e ∧ helloworld.SymtabDenotes e := by
  refine ⟨_, rfl, (helloworld.symtabDenotes_iff _ rfl).mpr ⟨?_, ?_, ?_, ?_⟩⟩
  · intro ss label b rest s hp hs
    rcases ss with _ | ⟨_, _ | ⟨_, _ | ⟨_, _ | ⟨_, _ | ⟨_, _ | ⟨_, ss⟩⟩⟩⟩⟩⟩ <;>
      simp [helloworld, program] at hp
    obtain ⟨rfl, ⟨rfl, rfl⟩, rfl⟩ := hp
    cases hs
    exact Or.inl ⟨rfl, .directive (.global (sym "_start")), start, ⟨[], _, rfl, rfl⟩, rfl, rfl, rfl⟩
  · intro ss label string rest s hp hs
    rcases helloworld_ascii hp with rfl | rfl
    · cases hs
      decide
    · cases hs
      decide
  · intro label d hmem
    simp [helloworld, program] at hmem
    rcases hmem with ⟨rfl, rfl⟩ | ⟨rfl, rfl⟩
    · exact Or.inr ⟨sym "message", _, ⟨helloworld.reductions.take 12, _, rfl, rfl⟩, rfl, by decide⟩
    · exact Or.inr ⟨sym "message2", _, ⟨helloworld.reductions.take 14, _, rfl, rfl⟩, rfl, by decide⟩
  · intro symbol hmem
    simp [helloworld, program, Program.reductions, reductionsOf, Statement.reductions, block] at hmem
    subst hmem
    exact Or.inl ⟨sym "_start", _, List.mem_cons_of_mem _ List.mem_cons_self, rfl⟩

/-- In `strlen` the block `loop` starts at index 1, and its entry has the value zero. -/
theorem strlen_not_symtabDenotes : ¬ ∀ (p : Program) e, p.assemble = .ok e → p.SymtabDenotes e := by
  intro h
  obtain ⟨sym, -, hsym⟩ := (h strlen _ rfl).code (strlen.statements.take 3) _ _ _ _ rfl rfl
  rcases (Program.entered_text_iff (p := strlen) rfl _ _).mp ⟨sym, hsym⟩ with ⟨h0, -⟩ | hval
  · revert h0
    decide
  · obtain ⟨label, s, ⟨pre, post, hp, -⟩, -⟩ := hval
    have hmem : .labelDirective label ∈ strlen.reductions := by
      rw [hp]
      simp
    simp [strlen, program, Program.reductions, reductionsOf, Statement.reductions, block] at hmem

end RiscvAssembler
