import RiscvAssembler.Fixups
import RiscvAssembler.Layout

/-!
# The symbol table

* `pushedBy s r` is the entry that reduction `r` appends to the symbol table in state `s`
  (`step_tabled`). Labels come from `init_label`, which leaves `st_value` at zero, and data from
  `add_program_data`.
* `Program.Entered p l sym`: parsing `p`, a reduction that names `l` appends `sym`. These are all
  entries but the null one (`mem_symtab_iff`), and their names read back (`Program.Entered.reads`),
  also from the file (`Program.Entered.in_file`).
* `Program.reachable`: what a program serializes is reachable through the operations on objects.
-/

namespace RiscvAssembler

open Runs ParserState Bytes Gabi

/-- The label that a reduction can append an entry for. -/
def Reduction.names : Reduction → Option Str
  | .labelInstructions label => some label.text
  | .labelDirective label => some label.text
  | .directive (.global symbol) => some symbol.text
  | _ => none

/-- The header index of `.text`. -/
def textIndex : BitVec 16 := 4

/-- The header index of `.data`. -/
def dataIndex : BitVec 16 := 5

namespace ParserState

/-! ## What a reduction appends -/

/-- The parser's section is one of three, a value waits for its label only in a section, and no
section has been entered in the map since the constructor. -/
structure Tidy (s : ParserState) : Prop where
  currentSection : s.currentSection = [] ∨ s.currentSection = str ".text" ∨
    s.currentSection = str ".data"
  tempValue : s.currentSection = [] → s.tempValue = []
  sectionToIdx : s.elf.sectionToIdx = ELF32.init.sectionToIdx

theorem tidy_start : start.Tidy := ⟨Or.inl rfl, fun _ => rfl, rfl⟩

/-- A tidy parser that enters a section stays tidy. -/
theorem Tidy.enter {s t : ParserState} (hs : s.Tidy)
    (hc : t.currentSection = str ".text" ∨ t.currentSection = str ".data") (he : t.elf = s.elf) :
    t.Tidy := by
  refine ⟨Or.inr hc, ?_, he ▸ hs.sectionToIdx⟩
  intro h0
  rw [h0] at hc
  exact absurd hc (by decide)

/-- The header index that the constructor registers for a section, or 0. -/
def shndx (sectionName : Str) : BitVec 16 :=
  ((ELF32.init.sectionToIdx.lookup sectionName).getD 0).setWidth 16

variable {s t : ParserState}

/-- The entry that `init_label` pushes. -/
def labelEntry (s : ParserState) (l : Str) (isGlobal : Bool) (sectionName : Str) : Elf32Sym :=
  { stName := BitVec.ofNat 32 (s.elf.strtab.addString l).2
    stInfo := (elf32StBind (if isGlobal then stbGlobal else stbLocal)).setWidth 8
    stShndx := shndx sectionName }

/-- The entry that `add_program_data` pushes. -/
def dataEntry (s : ParserState) (l : Str) : Elf32Sym :=
  { stName := BitVec.ofNat 32 (s.elf.strtab.addString l).2
    stInfo := (elf32StBind stbLocal).setWidth 8
    stShndx := shndx s.currentSection
    stValue := BitVec.ofNat 32 s.elf.secData.data.length }

/-- The entry that a reduction appends to the symbol table. -/
def pushedBy (s : ParserState) : Reduction → Option Elf32Sym
  | .labelInstructions label =>
    if s.elf.labelExists label.text then none
    else some (s.labelEntry label.text false s.currentSection)
  | .directive (.global symbol) =>
    if s.elf.labelExists symbol.text then none
    else some (s.labelEntry symbol.text true (str ".text"))
  | .labelDirective label => if s.tempValue = [] then none else some (s.dataEntry label.text)
  | _ => none

theorem pushedBy_labelDirective (label : Symbol) (h : s.tempValue ≠ []) :
    s.pushedBy (.labelDirective label) = some (s.dataEntry label.text) := if_neg h

/-- The bytes that a reduction appends to `.data`. -/
def storedBy (s : ParserState) : Reduction → Str
  | .labelDirective _ => s.tempValue
  | _ => []

end ParserState

namespace ELF32

variable (e : ELF32)

/-- `init_label` on a new name pushes an entry with the value zero, in the section it is given. -/
theorem tables_initLabel {l : Str} (h : e.labelExists l = false) (isGlobal : Bool)
    (sectionName : Str) :
    (e.initLabel l isGlobal sectionName).symtab.data =
        e.symtab.data ++ [e.labelSym (e.strtab.addString l).2 isGlobal sectionName] ∧
      (e.initLabel l isGlobal sectionName).strtab.data = (e.strtab.addString l).1.data ∧
      (e.initLabel l isGlobal sectionName).secData = e.secData ∧
      (e.initLabel l isGlobal sectionName).sectionToIdx = e.sectionToIdx := by
  simp [initLabel, h, storeRegularString, Symtab.push, labelSym]

/-- `add_program_data` pushes an entry with the offset of the value, in a registered section. -/
theorem tables_addProgramData (l value : Str) {sectionName : Str} {idx : Word}
    (h : e.sectionToIdx.lookup sectionName = some idx) :
    (e.addProgramData l value sectionName).symtab.data =
        e.symtab.data ++
          [{ stName := BitVec.ofNat 32 (e.strtab.addString l).2
             stInfo := (elf32StBind stbLocal).setWidth 8
             stShndx := idx.setWidth 16
             stValue := BitVec.ofNat 32 e.secData.data.length }] ∧
      (e.addProgramData l value sectionName).strtab.data = (e.strtab.addString l).1.data ∧
      (e.addProgramData l value sectionName).secData.data = e.secData.data ++ value ∧
      (e.addProgramData l value sectionName).sectionToIdx = e.sectionToIdx := by
  simp [addProgramData, storeRegularString, sectionToIdxAt, h, Symtab.push, Data.push]

/-- The entry of a label, by the header index that the section map has for its section. -/
theorem labelSym_of_shndx {sectionName : Str} {i : BitVec 16}
    (h : ((e.sectionToIdx.lookup sectionName).getD 0).setWidth 16 = i) (idx : ℕ) (isGlobal : Bool) :
    e.labelSym idx isGlobal sectionName =
      { stName := BitVec.ofNat 32 idx
        stInfo := (elf32StBind (if isGlobal then stbGlobal else stbLocal)).setWidth 8
        stShndx := i } := by
  rw [labelSym, ← h]
  cases e.sectionToIdx.lookup sectionName <;> rfl

theorem labelSym_eq (h : e.sectionToIdx = init.sectionToIdx) (idx : ℕ) (isGlobal : Bool)
    (sectionName : Str) :
    e.labelSym idx isGlobal sectionName =
      { stName := BitVec.ofNat 32 idx
        stInfo := (elf32StBind (if isGlobal then stbGlobal else stbLocal)).setWidth 8
        stShndx := shndx sectionName } := by
  apply labelSym_of_shndx
  rw [h, shndx]

end ELF32

namespace ParserState

variable {s t : ParserState}

/-- What a reduction does to the tables: it appends an entry and its name, or neither. -/
structure Tabled (s : ParserState) (r : Reduction) (t : ParserState) : Prop where
  symtab : t.elf.symtab.data = s.elf.symtab.data ++ (s.pushedBy r).toList
  strtab : t.elf.strtab.data =
    match s.pushedBy r, r.names with
    | some _, some l => (s.elf.strtab.addString l).1.data
    | _, _ => s.elf.strtab.data
  secData : t.elf.secData.data = s.elf.secData.data ++ s.storedBy r
  tidy : t.Tidy

/-- A reduction that records a label, in a tidy state. -/
theorem Tabled.of_initLabel (hs : s.Tidy) {r : Reduction} {l sectionName : Str} {isGlobal : Bool}
    (hnames : r.names = some l) (hstored : s.storedBy r = [])
    (hpushed : s.pushedBy r =
      if s.elf.labelExists l then none else some (s.labelEntry l isGlobal sectionName))
    (ht : t = { s with elf := s.elf.initLabel l isGlobal sectionName }) : Tabled s r t := by
  subst ht
  cases hex : s.elf.labelExists l with
  | true =>
      have hnone : s.pushedBy r = none := by simp [hpushed, hex]
      simp only [s.elf.initLabel_of_exists _ _ hex]
      exact ⟨by simp [hnone], by simp [hnone], by simp [hstored], hs⟩
  | false =>
      have hsome : s.pushedBy r = some (s.labelEntry l isGlobal sectionName) := by
        simp [hpushed, hex]
      obtain ⟨hsym, hstr, hdata, hidx⟩ := s.elf.tables_initLabel hex isGlobal sectionName
      rw [s.elf.labelSym_eq hs.sectionToIdx] at hsym
      exact ⟨by rw [hsym, hsome]; rfl, by rw [hsome, hnames]; exact hstr,
        by rw [hdata, hstored, List.append_nil],
        hs.currentSection, hs.tempValue, hidx.trans hs.sectionToIdx⟩

/-- **What a reduction appends to the tables.** -/
theorem step_tabled {r : Reduction} (hs : s.Tidy) (h : step s r = .ok t) : Tabled s r t := by
  cases r with
  | instruction i =>
      have hi := step_instruction h
      exact ⟨by rw [hi.symtab]; exact (List.append_nil _).symm, by rw [hi.strtab]; rfl,
        by rw [hi.secData]; exact (List.append_nil _).symm, hi.currentSection ▸ hs.currentSection,
        by rw [hi.currentSection, hi.tempValue]; exact hs.tempValue,
        hi.sectionToIdx.trans hs.sectionToIdx⟩
  | labelInstructions label => cases h; exact .of_initLabel hs rfl rfl rfl rfl
  | labelDirective label =>
      cases h
      by_cases hv : s.tempValue = []
      · have hnone : s.pushedBy (.labelDirective label) = none := if_pos hv
        have hlen : ¬ s.tempValue.length > 0 := by simp [hv]
        simp only [labelDirectiveAction, if_neg hlen]
        exact ⟨by simp [hnone], by simp [hnone], by simp [storedBy, hv], hs.currentSection, hs.tempValue,
          hs.sectionToIdx⟩
      · have hsome := pushedBy_labelDirective label hv
        have hlen : s.tempValue.length > 0 := List.length_pos_iff.mpr hv
        obtain ⟨idx, hidx⟩ : ∃ idx, s.elf.sectionToIdx.lookup s.currentSection = some idx := by
          rw [hs.sectionToIdx]
          rcases hs.currentSection with hc | hc | hc
          · exact absurd (hs.tempValue hc) hv
          · exact ⟨4, by rw [hc]; rfl⟩
          · exact ⟨5, by rw [hc]; rfl⟩
        have hshndx : shndx s.currentSection = idx.setWidth 16 := by
          rw [shndx, ← hs.sectionToIdx, hidx, Option.getD_some]
        obtain ⟨hsym, hstr, hdata, hmap⟩ :=
          s.elf.tables_addProgramData label.text s.tempValue hidx
        simp only [labelDirectiveAction, if_pos hlen]
        refine ⟨?_, by rw [hsome]; exact hstr, hdata, hs.currentSection, fun _ => rfl,
          hmap.trans hs.sectionToIdx⟩
        rw [hsym, hsome, dataEntry, hshndx]
        rfl
  | directive d =>
      cases h
      cases d with
      | global symbol =>
          refine .of_initLabel hs rfl rfl rfl ?_
          simp [directiveAction]
      | text =>
          exact ⟨(List.append_nil _).symm, rfl, (List.append_nil _).symm, hs.currentSection,
            hs.tempValue, hs.sectionToIdx⟩
      | sectionText =>
          exact ⟨(List.append_nil _).symm, rfl, (List.append_nil _).symm, hs.enter (Or.inl rfl) rfl⟩
      | sectionData =>
          exact ⟨(List.append_nil _).symm, rfl, (List.append_nil _).symm, hs.enter (Or.inr rfl) rfl⟩
      | data =>
          exact ⟨(List.append_nil _).symm, rfl, (List.append_nil _).symm, hs.enter (Or.inr rfl) rfl⟩
      | ascii string =>
          exact ⟨(List.append_nil _).symm, rfl, (List.append_nil _).symm, hs.enter (Or.inr rfl) rfl⟩

/-- Every state that the parser reaches is tidy. -/
theorem run_tidy {rs : List Reduction} {u : ParserState} (h : run step start rs = .ok u) : u.Tidy :=
  run_invariant Tidy (fun _ _ _ hs ht => (step_tabled hs ht).tidy) tidy_start h

/-- A relation that every step from a tidy state is in holds along every run from one. -/
theorem run_rel_of_tidy (R : ParserState → ParserState → Prop) (hrefl : ∀ s, R s s)
    (htrans : ∀ s t u, R s t → R t u → R s u)
    (hstep : ∀ s r t, Tabled s r t → R s t) {rs : List Reduction} {u : ParserState} (hs : s.Tidy)
    (h : run step s rs = .ok u) : R s u := by
  have hboth := run_rel (fun s t => s.Tidy → t.Tidy ∧ R s t) (fun s hs => ⟨hs, hrefl s⟩)
    (fun s t u hst htu hs => ⟨(htu (hst hs).1).1, htrans s t u (hst hs).2 (htu (hst hs).1).2⟩)
    (fun s r t ht hs => ⟨(step_tabled hs ht).tidy, hstep s r t (step_tabled hs ht)⟩) h
  exact (hboth hs).2

/-- `.data` only grows. -/
theorem run_data {rs : List Reduction} {u : ParserState} (hs : s.Tidy)
    (h : run step s rs = .ok u) : s.elf.secData.data <+: u.elf.secData.data :=
  run_rel_of_tidy (fun s t => s.elf.secData.data <+: t.elf.secData.data) (fun _ => List.prefix_rfl)
    (fun _ _ _ => List.IsPrefix.trans) (fun _ _ _ ht => ⟨_, ht.secData.symm⟩) hs h

/-- The symbol table only grows. -/
theorem run_symtab {rs : List Reduction} {u : ParserState} (hs : s.Tidy)
    (h : run step s rs = .ok u) : s.elf.symtab.data <+: u.elf.symtab.data :=
  run_rel_of_tidy (fun s t => s.elf.symtab.data <+: t.elf.symtab.data) (fun _ => List.prefix_rfl)
    (fun _ _ _ => List.IsPrefix.trans) (fun _ _ _ ht => ⟨_, ht.symtab.symm⟩) hs h

/-- A reduction that appends an entry names a label. -/
theorem names_of_pushedBy {r : Reduction} {sym : Elf32Sym} (h : s.pushedBy r = some sym) :
    ∃ l, r.names = some l ∧ sym.stName = BitVec.ofNat 32 (s.elf.strtab.addString l).2 := by
  cases r with
  | instruction i => cases h
  | labelInstructions label =>
      simp only [pushedBy] at h
      split_ifs at h
      cases h
      exact ⟨label.text, rfl, rfl⟩
  | labelDirective label =>
      simp only [pushedBy] at h
      split_ifs at h
      cases h
      exact ⟨label.text, rfl, rfl⟩
  | directive d =>
      cases d with
      | global symbol =>
          simp only [pushedBy] at h
          split_ifs at h
          cases h
          exact ⟨symbol.text, rfl, rfl⟩
      | _ => cases h

/-- The string table keeps the names it holds, and gets new ones behind them. -/
theorem run_strtab {rs : List Reduction} {u : ParserState} {names : List Str} (hs : s.Tidy)
    (hnames : s.elf.strtab.Holds names) (h : run step s rs = .ok u) :
    ∃ more, u.elf.strtab.Holds (names ++ more) := by
  refine run_rel_of_tidy (fun s t => ∀ names, s.elf.strtab.Holds names →
    ∃ more, t.elf.strtab.Holds (names ++ more)) (fun s names hs => ⟨[], by simpa using hs⟩)
    (fun s t u hst htu names hs => ?_) (fun s r t ht names hs => ?_) hs h names hnames
  · obtain ⟨more, hmore⟩ := hst names hs
    obtain ⟨more', hmore'⟩ := htu _ hmore
    exact ⟨more ++ more', by rwa [← List.append_assoc]⟩
  · have hstr := ht.strtab
    cases hpushed : s.pushedBy r with
    | none =>
        simp only [hpushed] at hstr
        exact ⟨[], by rw [List.append_nil]; exact hstr.trans hs⟩
    | some sym =>
        obtain ⟨l, hl, -⟩ := names_of_pushedBy hpushed
        simp only [hpushed, hl] at hstr
        exact ⟨[l], hstr.trans (StringTable.holds_addString hs l)⟩

/-- The string table holds some names in every state that the parser reaches. -/
theorem holds_of_run {rs : List Reduction} {u : ParserState} (h : run step start rs = .ok u) :
    ∃ names, u.elf.strtab.Holds names := by
  have hstart : start.elf.strtab.Holds [] := rfl
  obtain ⟨more, hmore⟩ := run_strtab tidy_start hstart h
  exact ⟨_, hmore⟩

end ParserState

/-! ## The entries of a program -/

/-- Parsing the program, the parser comes to reduction `r` in state `s`. -/
def Program.Meets (p : Program) (r : Reduction) (s : ParserState) : Prop :=
  ∃ pre post, p.reductions = pre ++ r :: post ∧ run step start pre = .ok s

/-- Parsing the program, a reduction that names `l` appends `sym` to the symbol table. -/
def Program.Entered (p : Program) (l : Str) (sym : Elf32Sym) : Prop :=
  ∃ r s t, p.Meets r s ∧ step s r = .ok t ∧ r.names = some l ∧
    t.elf.symtab.data = s.elf.symtab.data ++ [sym]

section

variable {p : Program} {u : ParserState}

/-- The run, cut open around a reduction. -/
theorem Program.Meets.split {r : Reduction} {s : ParserState} (h : p.Meets r s)
    (hu : p.parse = .ok u) :
    s.Tidy ∧ ∃ t post, step s r = .ok t ∧ run step t post = .ok u := by
  obtain ⟨pre, post, hp, hs⟩ := h
  have hrun : run step start (pre ++ r :: post) = .ok u := hp ▸ hu
  obtain ⟨t, ht, hpost⟩ := run_at hs hrun
  exact ⟨run_tidy hs, t, post, ht, hpost⟩

/-- The entries of a program, by what its reductions push. -/
theorem Program.entered_iff (hu : p.parse = .ok u) {l : Str} {sym : Elf32Sym} :
    p.Entered l sym ↔ ∃ r s, p.Meets r s ∧ r.names = some l ∧ s.pushedBy r = some sym := by
  constructor
  · rintro ⟨r, s, t, hmeets, ht, hl, hsym⟩
    refine ⟨r, s, hmeets, hl, ?_⟩
    rw [(step_tabled (hmeets.split hu).1 ht).symtab] at hsym
    simpa [Option.toList_eq_singleton_iff] using hsym
  · rintro ⟨r, s, hmeets, hl, hsym⟩
    obtain ⟨htidy, t, -, ht, -⟩ := hmeets.split hu
    refine ⟨r, s, t, hmeets, ht, hl, ?_⟩
    rw [(step_tabled htidy ht).symtab, hsym]
    rfl

/-- The symbol table holds the null entry and the entries of the program's labels. -/
theorem Program.mem_symtab_iff (hu : p.parse = .ok u) {sym : Elf32Sym} :
    sym ∈ u.elf.symtab.data ↔ sym = {} ∨ ∃ l, p.Entered l sym := by
  have hrun : run step start p.reductions = .ok u := hu
  have hstart : ∀ sym, sym ∈ start.elf.symtab.data ↔ sym = {} := fun _ => List.mem_singleton
  constructor
  · intro hmem
    refine or_iff_not_imp_left.mpr ?_
    intro hne
    obtain ⟨pre, r, post, s, t, hp, hs, ht, hold, hnew⟩ :=
      run_switch (fun s : ParserState => sym ∈ s.elf.symtab.data) (by simpa [hstart] using hne) hmem
        hrun
    have hpushed : s.pushedBy r = some sym := by
      rw [(step_tabled (run_tidy hs) ht).symtab, List.mem_append] at hnew
      simpa using hnew.resolve_left hold
    obtain ⟨l, hl, -⟩ := names_of_pushedBy hpushed
    exact ⟨l, (entered_iff hu).mpr ⟨r, s, ⟨pre, post, hp, hs⟩, hl, hpushed⟩⟩
  · rintro (rfl | ⟨l, r, s, t, hmeets, ht, -, hsym⟩)
    · exact (run_symtab tidy_start hrun).subset ((hstart _).mpr rfl)
    · obtain ⟨htidy, t', post, ht', hpost⟩ := hmeets.split hu
      obtain rfl := Except.ok.inj (ht.symm.trans ht')
      refine (run_symtab (step_tabled htidy ht).tidy hpost).subset ?_
      rw [hsym]
      simp

/-- A symbol of the scanner contains no NUL. -/
theorem Symbol.zero_notMem (symbol : Symbol) : (0 : Byte) ∉ symbol.text := by
  obtain ⟨text, htext⟩ := symbol
  intro h0
  cases text with
  | nil => cases h0
  | cons c cs =>
      simp only [isSymbolText, Bool.and_eq_true, List.all_eq_true] at htext
      rcases List.mem_cons.mp h0 with rfl | h0
      · exact absurd htext.1 (by decide)
      · exact absurd (htext.2 0 h0) (by decide)

/-- The names of a reduction are symbols of the scanner. -/
theorem Reduction.cString_of_names {r : Reduction} {l : Str} (h : r.names = some l) :
    cString l = l := by
  cases r with
  | instruction i => cases h
  | labelInstructions label => cases h; exact cString_eq_self label.zero_notMem
  | labelDirective label => cases h; exact cString_eq_self label.zero_notMem
  | directive d =>
      cases d with
      | global symbol => cases h; exact cString_eq_self symbol.zero_notMem
      | _ => cases h

/-- **The name of an entry reads back**, if the string table's offsets fit their fields. -/
theorem Program.Entered.reads {l : Str} {sym : Elf32Sym} (h : p.Entered l sym)
    (hu : p.parse = .ok u) (hlen : u.elf.strtab.data.length < 2 ^ 32) :
    readCString u.elf.strtab.data sym.stName.toNat = some l := by
  obtain ⟨r, s, hmeets, hl, hsym⟩ := (entered_iff hu).mp h
  obtain ⟨htidy, t, post, ht, hpost⟩ := hmeets.split hu
  obtain ⟨pre, -, -, hs⟩ := hmeets
  obtain ⟨names, hnames⟩ := holds_of_run hs
  have htabled := step_tabled htidy ht
  have hstr := htabled.strtab
  simp only [hsym, hl] at hstr
  obtain ⟨more, hmore⟩ := run_strtab htabled.tidy
    (hstr.trans (StringTable.holds_addString hnames l)) hpost
  rw [List.append_assoc, List.singleton_append] at hmore
  obtain ⟨l', hl', hname⟩ := names_of_pushedBy hsym
  obtain rfl := Option.some.inj (hl.symm.trans hl')
  have hoff : (StringTable.body names).length + 1 < 2 ^ 32 := by
    rw [hmore] at hlen
    simp only [StringTable.tableBytes, StringTable.body, List.flatMap_append, List.length_cons,
      List.length_append] at hlen ⊢
    omega
  rw [hname, StringTable.addString_offset hnames, BitVec.toNat_ofNat, Nat.mod_eq_of_lt hoff, hmore,
    StringTable.readCString_tableBytes, Reduction.cString_of_names hl]

end

/-! ## The serialized table -/

namespace ELF32

/-- The fixup pass leaves data and tables alone. -/
theorem tables_resolveUnresolvedInstructions (e : ELF32) :
    e.resolveUnresolvedInstructions.symtab = e.symtab ∧
      e.resolveUnresolvedInstructions.strtab = e.strtab ∧
      e.resolveUnresolvedInstructions.secData = e.secData := by
  refine ⟨?_, ?_, ?_⟩
  · exact project_resolveUnresolvedInstructions (fun e => e.symtab) (fun _ _ _ => rfl) e
  · exact project_resolveUnresolvedInstructions (fun e => e.strtab) (fun _ _ _ => rfl) e
  · exact project_resolveUnresolvedInstructions (fun e => e.secData) (fun _ _ _ => rfl) e

/-- One more call leads from a reachable object to a reachable one. -/
theorem Reachable.apply {e : ELF32} (h : e.Reachable) (op : Op) : (op.apply e).Reachable := by
  obtain ⟨ops, rfl⟩ := h
  exact ⟨ops ++ [op], by simp [build]⟩

end ELF32

/-- The actions build the object through its operations. -/
theorem ParserState.step_reachable {s t : ParserState} {r : Reduction} (hs : s.elf.Reachable)
    (h : step s r = .ok t) : t.elf.Reachable := by
  cases r with
  | labelInstructions label => cases h; exact hs.apply (.initLabel label.text false s.currentSection)
  | labelDirective label =>
      cases h
      simp only [labelDirectiveAction]
      split_ifs
      · exact hs.apply (.addProgramData label.text s.tempValue s.currentSection)
      · exact hs
  | directive d =>
      cases h
      cases d with
      | global symbol => exact hs.apply (.updateLabelVisibility symbol.text true)
      | _ => exact hs
  | instruction i =>
      cases i with
      | rType op rd rs1 rs2 => cases h; exact hs.apply (.addToText _)
      | iType op rd rs1 imm =>
          cases imm with
          | imm ival =>
              obtain ⟨-, rfl⟩ := ite_error_eq_ok.mp h
              exact hs.apply (.addToText _)
          | modifier hi => cases h; exact hs
          | symbol symbol =>
              by_cases hex : s.elf.symbolExists symbol.text = true
              · cases (if_pos hex).symm.trans h
                exact hs.apply (.addToText _)
              · cases (if_neg hex).symm.trans h
                exact hs.apply (.addSymbol symbol.text _ _ _ false false)
      | loadStore op r imm base =>
          cases h
          simp only [loadStoreAction]
          split_ifs <;> exact hs.apply (.addToText _)
      | branch op rs1 rs2 symbol =>
          cases h
          have hres := hs.apply (.resolveLabel symbol.text)
          change (s.branchAction op rs1 rs2 symbol).elf.Reachable
          simp only [branchAction]
          split_ifs
          · exact (hres.apply (.addToUnresolvedInsns _ .bType _ _)).apply (.addToText _)
          · exact hres.apply (.addToText _)
      | opcode op => cases h; exact hs.apply (.addToText _)
      | psuedo q =>
          cases q with
          | la rd symbol => cases h; exact hs
          | jump symbol =>
              have hres := hs.apply (.resolveLabel symbol.text)
              simp only [step, instructionAction, jumpAction] at h
              split_ifs at h
              · cases h
                exact hres.apply (.addToUnresolvedInsns _ .jType _ _)
              · cases h
                exact hres.apply (.addToText _)
          | mov rd rs => cases h; exact hs.apply (.addToText _)
          | ret => cases h; exact hs.apply (.addToText _)

/-- **What the program serializes is a reachable object.** -/
theorem Program.reachable {p : Program} {e : ELF32} (h : p.assemble = .ok e) : e.Reachable := by
  obtain ⟨u, hu, hfix⟩ := bind_eq_ok.mp h
  cases hfix
  have hreach : u.elf.Reachable :=
    run_invariant (fun s : ParserState => s.elf.Reachable)
      (fun _ _ _ => ParserState.step_reachable) ⟨[], rfl⟩ hu
  exact hreach.apply .resolveUnresolvedInstructions

/-- **An entry of the program, in the file**: a reader finds it in the symbol table, under the
name of the label. -/
theorem Program.Entered.in_file {p : Program} {e : ELF32} {l : Str} {sym : Elf32Sym}
    (h : p.Entered l sym) (he : p.assemble = .ok e) (hlen : e.file.length < 2 ^ 32) :
    ∃ v k, ELF32.Recovered e.file e v ∧ symbolAt e.file v.symtab k = some sym.view ∧
      symbolName e.file v.ehdr v.symtab sym.view = some l := by
  have hshaped := ELF32.shaped_of_reachable (reachable he)
  have hrec := hshaped.reads_back hlen
  obtain ⟨u, hu, hfix⟩ := bind_eq_ok.mp he
  cases hfix
  obtain ⟨hsymtab, hstrtab, -⟩ := u.elf.tables_resolveUnresolvedInstructions
  have hmem : sym ∈ u.elf.resolveUnresolvedInstructions.symtab.data := by
    rw [hsymtab]
    exact (mem_symtab_iff hu).mpr (Or.inr ⟨l, h⟩)
  obtain ⟨k, hk, rfl⟩ := List.mem_iff_getElem.mp hmem
  refine ⟨_, k, hrec, hshaped.symbolAt_view hlen hk, ?_⟩
  have hstrlen : u.elf.strtab.data.length < 2 ^ 32 := by
    rw [ELF32.length_file hshaped] at hlen
    simp only [ELF32.tableOffset, ELF32.symtabOffset, ELF32.shstrtabOffset, ELF32.strtabOffset,
      hstrtab] at hlen
    omega
  rw [symbolName, hrec.symtabLink, Option.bind_some, hrec.strtab.bytes, Option.bind_some, hstrtab]
  exact h.reads hu hstrlen

end RiscvAssembler
