import RiscvAssembler.Scanner
import RiscvAssembler.Lib.Munch

/-!
# Texts of tokens, scanned again

An `Item` is a token with a text of it: a word that the language fixes, a decimal number within `int`, a
string, a symbol that is none of these, or another directive. `Printed items text` writes items behind
each other, with one blank or line end between two of them.

* `whole_text`: the rules that accept the whole text of an item begin with the one for its token, but
  for the symbol `n`: the class of a backslash and an `n` takes that for a line end.
* `ends_text`: no rule goes on from the text of an item over a blank or a line end.
* `lexemes_of_printed`: what the scanner makes of a printed text.
* `lexesBack_iff`: it gives the items back exactly when no symbol is `n` and no string has a NUL.
-/

namespace RiscvAssembler

open Bytes Lex Lex.Regex Scanner

namespace Printing

/-! ## Words -/

/-- The mnemonics. -/
def mnemonics : List (String × Token) :=
  [("add", .add), ("addi", .addi), ("and", .and), ("andi", .andi), ("sub", .sub), ("li", .li),
    ("beq", .beq), ("bne", .bne), ("bge", .bge), ("bgeu", .bgeu), ("blt", .blt), ("bltu", .bltu),
    ("la", .la), ("lb", .lb), ("lbu", .lbu), ("lh", .lh), ("lhu", .lhu), ("lw", .lw), ("mv", .mov),
    ("or", .or), ("ori", .ori), ("sb", .sb), ("sh", .sh), ("sll", .sll), ("slli", .slli),
    ("slt", .slt), ("slti", .slti), ("sltiu", .sltiu), ("sltu", .sltu), ("sra", .sra),
    ("srai", .srai), ("srl", .srl), ("srli", .srli), ("sw", .sw), ("xor", .xor), ("xori", .xori),
    ("ecall", .ecall), ("ebreak", .ebreak), ("ret", .ret), ("jal", .jal), ("jalr", .jalr),
    ("fence", .fence), ("lui", .lui), ("auipc", .auipc), ("hi", .hi), ("lo", .lo)]

/-- The other reserved words: punctuation, `j` and the directives that have a token of their own. -/
def otherWords : List (String × Token) :=
  [("(", .parenOpen), (")", .parenClose), (":", .colon), ("%", .pct), (",", .comma), ("j", .jump),
    (".section", .sectionDirective), (".text", .dText), (".data", .dData), (".rodata", .dRodata),
    (".bss", .dBss), (".size", .dSize), (".globl", .dGlobal), (".global", .dGlobal),
    (".ascii", .dAscii)]

/-- The names of the registers, by number. -/
def registerNames : List (List String) :=
  [["x0", "zero"], ["x1", "ra"], ["x2", "sp"], ["x3", "gp"], ["x4", "tp"], ["x5", "t0"],
    ["x6", "t1"], ["x7", "t2"], ["x8", "s0"], ["x9", "s1"], ["x10", "a0"], ["x11", "a1"],
    ["x12", "a2"], ["x13", "a3"], ["x14", "a4"], ["x15", "a5"], ["x16", "a6"], ["x17", "a7"],
    ["x18", "s2"], ["x19", "s3"], ["x20", "s4"], ["x21", "s5"], ["x22", "s6"], ["x23", "s7"],
    ["x24", "s8"], ["x25", "s9"], ["x26", "s10"], ["x27", "s11"], ["x28", "t3"], ["x29", "t4"],
    ["x30", "t5"], ["x31", "t6"]]

/-- A table of words, as texts. -/
def texts (table : List (String × Token)) : List (Str × Token) := table.map fun p => (str p.1, p.2)

/-- The names of the registers with their tokens. -/
def registerTokens : List (String × Token) :=
  registerNames.zipIdx.flatMap fun p => p.1.map fun name => (name, .reg (BitVec.ofNat 5 p.2))

/-- All words that are not free to be symbols. -/
def fixedWords : List (Str × Token) := texts mnemonics ++ texts otherWords ++ texts registerTokens

/-- The text reads as a number: digits, or hexadecimal or binary digits behind their prefix. -/
def IsNumber (text : Str) : Prop :=
  (text ≠ [] ∧ ∀ c ∈ text, 0x30 ≤ c ∧ c ≤ 0x39) ∨
    ∃ c ds, text = 0x30 :: c :: ds ∧ ds ≠ [] ∧
      ((c = 0x78 ∨ c = 0x58) ∧ (∀ d ∈ ds, isAlnum d = true ∧ digitValue d < 16) ∨
        (c = 0x62 ∨ c = 0x42) ∧ ∀ d ∈ ds, d = 0x30 ∨ d = 0x31)

/-! ## Items -/

/-- A token with a text of it. -/
inductive Item
  /-- A mnemonic, a directive, a register or a punctuation mark. -/
  | word (p : Str × Token) (h : p ∈ fixedWords)
  /-- Decimal digits behind an optional sign, with a value that an `int` holds. -/
  | decimal (sign ds : Str) (hsign : sign = [] ∨ sign = [0x2b] ∨ sign = [0x2d]) (hne : ds ≠ [])
    (hds : ∀ c ∈ ds, 0x30 ≤ c ∧ c ≤ 0x39)
    (hint : -2 ^ 31 ≤ integer 10 (sign ++ ds) ∧ integer 10 (sign ++ ds) < 2 ^ 31)
  /-- A string literal. -/
  | string (s : StringLit)
  /-- A symbol that is no reserved word, no register and no number. -/
  | symbol (s : Symbol) (hne : s.text ≠ []) (hfree : ∀ p ∈ fixedWords, p.1 ≠ s.text)
    (hnumber : ¬ IsNumber s.text)
  /-- A directive without a token of its own. -/
  | command (name : Str) (hname : name.all isAlnum = true)
    (hfree : ∀ p ∈ fixedWords, p.1 ≠ 0x2e :: name)

/-- The text of an item. -/
def Item.text : Item → Str
  | .word p _ => p.1
  | .decimal sign ds _ _ _ _ => sign ++ ds
  | .string s => 0x22 :: (s.body ++ [0x22])
  | .symbol s _ _ _ => s.text
  | .command name _ _ => 0x2e :: name

/-- The token of an item. -/
def Item.token : Item → Token
  | .word p _ => p.2
  | .decimal sign ds _ _ _ _ => .imm (BitVec.ofInt 32 (integer 10 (sign ++ ds)))
  | .string s => .string s
  | .symbol s _ _ _ => .symbol s
  | .command _ _ _ => .directiveCommand

/-- The lexeme that an item should come back as. -/
def Item.lexeme (i : Item) : Lexeme Byte Token := ⟨i.text, i.token⟩

/-- A blank, a tab or a line end. -/
def separators : Str := [0x20, 0x09, 0x0a]

/-- The items, written behind each other with one separator between two of them. -/
inductive Printed : List Item → Str → Prop
  | nil : Printed [] []
  | last (i : Item) : Printed [i] i.text
  | cons (i j : Item) {is : List Item} {text : Str} {c : Byte} (hc : c ∈ separators)
    (h : Printed (j :: is) text) : Printed (i :: j :: is) (i.text ++ c :: text)

/-! ## Checks on the rules -/

/-- The letters of symbols and of directives. -/
def letters : Str :=
  [(0x30, 10), (0x41, 26), (0x61, 26), (0x5f, 1), (0x2e, 1)].flatMap fun p =>
    (List.range p.2).map fun i => BitVec.ofNat 8 (p.1 + i)

/-- The first characters of all texts but strings. -/
def heads : Str := letters ++ str "+-():%,"

theorem mem_letters {c : Byte} (h : c = 0x5f ∨ c = 0x2e ∨ isAlnum c = true) : c ∈ letters := by
  have hall : ∀ c : Byte, (c == 0x5f || c == 0x2e || isAlnum c) = true → letters.contains c = true := by
    decide +kernel
  rw [← List.contains_iff_mem]
  apply hall
  simpa [or_assoc] using h

/-- No rule for a text without quotes goes over a separator. -/
theorem avoids_separators : ∀ rule ∈ rules, (rule.re.avoids separators ||
    heads.all fun c => (rule.re.deriv c).avoids separators) = true := by
  decide +kernel

/-- No rule goes on behind the quote that ends a string. -/
theorem closes_quote : ∀ rule ∈ rules, (rule.re.deriv 0x22).closes [0x22] = true := by
  decide +kernel

/-- A separator is a match by itself, and yields nothing. -/
theorem whole_separator : ∀ c ∈ separators, (∀ rule ∈ rules, (rule.re.deriv c).spent = true) ∧
    whole rules [c] = some none := by
  decide +kernel

/-- The rules for mnemonics are those of a table. -/
theorem mnemonicRules_eq :
    mnemonicRules = (texts mnemonics).map fun p => ⟨word p.1, fun _ _ => some p.2⟩ := rfl

/-- The rules for registers. -/
def registerRules : List (Rule Byte Token) := registers.map fun p => register p.1 p.2

/-- The rules in front of the ones for other directives and for symbols. -/
def firstRules : List (Rule Byte Token) :=
  blankRules ++ mnemonicRules ++ immediateRules ++ registerRules ++ directiveRules.take 8

theorem rules_eq : rules = firstRules ++ directiveRules.drop 8 := by
  unfold firstRules
  rw [List.append_assoc, List.take_append_drop]
  rfl

/-- The rules take the words that the language fixes for what they are. -/
theorem whole_word : ∀ p ∈ fixedWords, whole rules p.1 = some (some p.2) := by
  have hrules : ∀ u, whole rules u =
      ((((whole blankRules u).or (((texts mnemonics).lookup u).map some)).or
        (whole immediateRules u)).or (whole registerRules u)).or (whole directiveRules u) := by
    intro u
    rw [rules, whole_append, whole_append, whole_append, whole_append, mnemonicRules_eq, whole_words,
      registerRules]
  simp only [hrules]
  decide +kernel

/-- Over the letters the rules have the words of their tables only, and the one for a backslash and an
`n` has `n`. -/
theorem within_tables :
    (∀ rule ∈ blankRules, rule.re.within letters [str "n", str "j"] = true) ∧
      (∀ rule ∈ registerRules, rule.re.within letters ((texts registerTokens).map Prod.fst) = true) ∧
      ∀ rule ∈ directiveRules.take 8, rule.re.within letters ((texts otherWords).map Prod.fst) = true := by
  decide +kernel

/-- Behind a digit or a sign the rules in front of the ones for numbers have nothing. -/
theorem dead_number : ∀ c : Byte, (c == 0x2b || c == 0x2d || decide (0x30 ≤ c) && decide (c ≤ 0x39)) =
    true → ∀ rule ∈ blankRules ++ mnemonicRules, (rule.re.deriv c).dead = true := by
  decide +kernel

/-- Behind a quote the rules in front of the one for strings have nothing. -/
theorem dead_quote : ∀ rule ∈ firstRules ++ (directiveRules.drop 8).take 2,
    (rule.re.deriv 0x22).dead = true := by
  decide +kernel

/-! ## No match stops short -/

/-- A text of letters that a rule for numbers accepts is a number. -/
theorem isNumber_of_accepts {u : Str} (hletters : ∀ a ∈ u, a ∈ letters) {rule : Rule Byte Token}
    (hrule : rule ∈ immediateRules) (h : rule.re.accepts u = true) : IsNumber u := by
  have hlang := (accepts_iff _ _).mp h
  simp only [immediateRules, List.mem_cons, List.not_mem_nil, or_false] at hrule
  rcases hrule with rfl | rfl | rfl
  · obtain ⟨sign, ds, hsign, hne, hds, rfl⟩ := mem_decimal.mp hlang
    rcases hsign with rfl | rfl | rfl
    · exact Or.inl ⟨hne, hds⟩
    · exact absurd (hletters 0x2b (by simp)) (by decide)
    · exact absurd (hletters 0x2d (by simp)) (by decide)
  · obtain ⟨c, hc, ds, hds, rfl⟩ := prefixed_of_mem hlang
    obtain ⟨hne, hall⟩ := mem_plus_cls.mp hds
    refine Or.inr ⟨c, ds, rfl, hne, Or.inl ⟨by simpa [str] using hc, fun d hd => ?_⟩⟩
    have hdigit := List.all_eq_true.mp hall d hd
    rw [Bool.and_eq_true, decide_eq_true_eq] at hdigit
    exact hdigit
  · obtain ⟨c, hc, ds, hds, rfl⟩ := prefixed_of_mem hlang
    obtain ⟨hne, hall⟩ := mem_plus_cls.mp hds
    refine Or.inr ⟨c, ds, rfl, hne, Or.inr ⟨by simpa [str] using hc, fun d hd => ?_⟩⟩
    have hdigit := List.contains_iff_mem.mp (List.all_eq_true.mp hall d hd)
    simpa [str] using hdigit

/-- A text of letters that is no fixed word, no number and not `n` gets past the first rules. -/
theorem firstRules_reject {u : Str} (hletters : ∀ a ∈ u, a ∈ letters)
    (hfree : ∀ p ∈ fixedWords, p.1 ≠ u) (hnumber : ¬ IsNumber u) (hn : u ≠ str "n") :
    ∀ rule ∈ firstRules, rule.re.accepts u = false := by
  obtain ⟨hblank, hregister, hdirective⟩ := within_tables
  have htable : ∀ table : List (Str × Token), (∀ p ∈ table, p ∈ fixedWords) →
      u ∉ table.map Prod.fst := by
    intro table hsub hmem
    obtain ⟨p, hp, rfl⟩ := List.mem_map.mp hmem
    exact hfree p (hsub p hp) rfl
  intro rule hrule
  simp only [firstRules, List.mem_append] at hrule
  rcases hrule with (((hrule | hrule) | hrule) | hrule) | hrule
  · refine accepts_of_within (hblank rule hrule) hletters ?_
    have hj : u ≠ str "j" := fun hj => hfree (str "j", .jump) (by decide +kernel) hj.symm
    simp [hn, hj]
  · rw [mnemonicRules_eq] at hrule
    obtain ⟨p, hp, rfl⟩ := List.mem_map.mp hrule
    rw [← Bool.not_eq_true, accepts_iff, mem_word]
    rintro rfl
    exact hfree p (by simp [fixedWords, hp]) rfl
  · rw [← Bool.not_eq_true]
    exact fun h => hnumber (isNumber_of_accepts hletters hrule h)
  · refine accepts_of_within (hregister rule hrule) hletters (htable _ fun p hp => ?_)
    simp [fixedWords, hp]
  · refine accepts_of_within (hdirective rule hrule) hletters (htable _ fun p hp => ?_)
    simp [fixedWords, hp]

/-- The characters of a symbol are letters. -/
theorem symbol_letters (s : Symbol) : ∀ a ∈ s.text, a ∈ letters ∧ a ≠ 0x2e := by
  obtain ⟨text, htext⟩ := s
  cases text with
  | nil => exact fun a ha => (List.not_mem_nil ha).elim
  | cons c cs =>
      simp only [isSymbolText, Bool.and_eq_true, Bool.or_eq_true, beq_iff_eq, List.all_eq_true] at htext
      have halnum : ∀ a : Byte, isAlnum a = true → a ≠ 0x2e := by
        rintro a ha rfl
        revert ha
        decide
      intro a ha
      rcases List.mem_cons.mp ha with rfl | ha
      · rcases htext.1 with rfl | hc
        · exact ⟨mem_letters (Or.inl rfl), by decide⟩
        · exact ⟨mem_letters (Or.inr (Or.inr hc)), halnum a hc⟩
      · exact ⟨mem_letters (Or.inr (Or.inr (htext.2 a ha))), halnum a (htext.2 a ha)⟩

/-- What the pattern of symbols accepts. -/
theorem accepts_symbolRe (s : Symbol) : symbolRe.accepts s.text = true := by
  obtain ⟨text, htext⟩ := s
  rw [accepts_iff, symbolRe, mem_seq]
  show ∃ u ∈ _, ∃ v ∈ _, u ++ v = text
  cases text with
  | nil => exact ⟨[], mem_opt.mpr (Or.inl rfl), [], mem_star_cls.mpr rfl, rfl⟩
  | cons c cs =>
      simp only [isSymbolText, Bool.and_eq_true, Bool.or_eq_true, beq_iff_eq] at htext
      obtain ⟨hc, hcs⟩ := htext
      rcases hc with rfl | hc
      · refine ⟨[0x5f], mem_opt.mpr (Or.inr (mem_oneOf.mpr ⟨0x5f, by decide, rfl⟩)), cs, ?_, rfl⟩
        exact mem_star_cls.mpr hcs
      · refine ⟨[], mem_opt.mpr (Or.inl rfl), c :: cs, mem_star_cls.mpr ?_, rfl⟩
        rw [List.all_cons, hc, hcs]
        rfl

/-- What the pattern of strings accepts. -/
theorem accepts_stringRe (s : StringLit) : stringRe.accepts (0x22 :: (s.body ++ [0x22])) = true := by
  have hquote : [(0x22 : Byte)] ∈ (oneOf "\"").lang := mem_oneOf.mpr ⟨0x22, by decide, rfl⟩
  rw [accepts_iff, stringRe, mem_seq]
  refine ⟨[0x22], hquote, s.body ++ [0x22], mem_seq.mpr ⟨s.body, ?_, [0x22], hquote, rfl⟩, rfl⟩
  rw [notOneOf, mem_star_cls, List.all_eq_true]
  intro c hc
  rw [bne_iff_ne]
  rintro rfl
  exact s.noQuote hc

/-- What the scanner returns for the text of an item. -/
def Item.returned : Item → Option Token
  | .symbol s _ _ _ => if s.text = str "n" then none else some (.symbol s)
  | i => some i.token

/-- **The first rule that accepts the whole text of an item is the one for its token**, but for the
symbol `n`. -/
theorem whole_text (i : Item) : whole rules i.text = some i.returned := by
  cases i with
  | word p h => exact whole_word p h
  | decimal sign ds hsign hne hds hint =>
      have hdead : whole (blankRules ++ mnemonicRules) (sign ++ ds) = none := by
        obtain ⟨c, cs, hcs, hc⟩ : ∃ c cs, sign ++ ds = c :: cs ∧
            (c = 0x2b ∨ c = 0x2d ∨ 0x30 ≤ c ∧ c ≤ 0x39) := by
          rcases hsign with rfl | rfl | rfl
          · obtain ⟨c, cs, rfl⟩ := List.exists_cons_of_ne_nil hne
            exact ⟨c, cs, rfl, Or.inr (Or.inr (hds c List.mem_cons_self))⟩
          · exact ⟨0x2b, ds, rfl, Or.inl rfl⟩
          · exact ⟨0x2d, ds, rfl, Or.inr (Or.inl rfl)⟩
        rw [hcs]
        refine whole_of_rejects fun rule hrule => ?_
        exact accepts_of_dead (dead_number c (by simpa [or_assoc] using hc) rule hrule) cs
      have hlang := mem_decimal.mpr ⟨sign, ds, hsign, hne, hds, rfl⟩
      have hnumber : whole immediateRules (sign ++ ds) = some (some (.imm (atoi (sign ++ ds)))) :=
        whole_cons_of_accepts ((accepts_iff _ _).mpr hlang)
      have hvalue : atoi (sign ++ ds) = BitVec.ofInt 32 (integer 10 (sign ++ ds)) :=
        narrowed_eq ⟨by omega, by omega⟩
      show whole rules (sign ++ ds) = _
      rw [rules, whole_append, whole_append, whole_append, hdead, hnumber, hvalue]
      rfl
  | string s =>
      have hsplit : rules = firstRules ++ (directiveRules.drop 8).take 2 ++ directiveRules.drop 10 := by
        rw [rules_eq, List.append_assoc]
        rfl
      have hdead : whole (firstRules ++ (directiveRules.drop 8).take 2) (0x22 :: (s.body ++ [0x22])) =
          none :=
        whole_of_rejects fun rule hrule => accepts_of_dead (dead_quote rule hrule) _
      show whole rules (0x22 :: (s.body ++ [0x22])) = _
      rw [hsplit, whole_append, hdead]
      refine (whole_cons_of_accepts (accepts_stringRe s)).trans ?_
      simp [Item.returned, Item.token]
  | symbol s hne hfree hnumber =>
      show whole rules s.text = some (if _ then _ else _)
      by_cases hn : s.text = str "n"
      · rw [if_pos hn, hn]
        decide +kernel
      · have hfirst : whole firstRules s.text = none :=
          whole_of_rejects (firstRules_reject (fun a ha => (symbol_letters s a ha).1) hfree hnumber hn)
        have hcommand : (seq (quoted ".") (star (cls isAlnum))).accepts s.text = false := by
          rw [← Bool.not_eq_true, accepts_iff, mem_seq]
          rintro ⟨u, hu, v, -, heq⟩
          rw [mem_word.mp hu] at heq
          refine (symbol_letters s 0x2e ?_).2 rfl
          rw [← heq]
          exact List.mem_cons_self
        rw [if_neg hn, rules_eq, whole_append, hfirst]
        exact (whole_cons_of_rejects hcommand).trans (whole_cons_of_accepts (accepts_symbolRe s))
  | command name hname hfree =>
      have hletters : ∀ a ∈ 0x2e :: name, a ∈ letters := by
        intro a ha
        rcases List.mem_cons.mp ha with rfl | ha
        · exact mem_letters (Or.inr (Or.inl rfl))
        · exact mem_letters (Or.inr (Or.inr (List.all_eq_true.mp hname a ha)))
      have hnumber : ¬ IsNumber (0x2e :: name) := by
        rintro (⟨-, hall⟩ | ⟨c, ds, heq, -⟩)
        · exact absurd (hall 0x2e List.mem_cons_self) (by decide)
        · cases heq
      have hfirst : whole firstRules (0x2e :: name) = none :=
        whole_of_rejects (firstRules_reject hletters hfree hnumber (by rintro ⟨⟩))
      have haccepts : (seq (quoted ".") (star (cls isAlnum))).accepts (0x2e :: name) = true :=
        (accepts_iff _ _).mpr (mem_seq.mpr ⟨[0x2e], mem_word.mpr rfl, name, mem_star_cls.mpr hname, rfl⟩)
      show whole rules (0x2e :: name) = _
      rw [rules_eq, whole_append, hfirst]
      exact whole_cons_of_accepts haccepts

/-! ## No match runs on -/

theorem head_words : ∀ p ∈ fixedWords, (p.1.head?.any fun c => heads.contains c) = true := by
  decide +kernel

/-- A text is a string, or its first character is one of the heads. -/
theorem head_text (i : Item) : (∃ s, i = .string s) ∨ ∃ c u, i.text = c :: u ∧ c ∈ heads := by
  have hletters : ∀ {c}, c ∈ letters → c ∈ heads := fun hc => List.mem_append_left _ hc
  cases i with
  | word p h =>
      obtain ⟨c, hc, hmem⟩ := (Option.any_eq_true _ _).mp (head_words p h)
      obtain ⟨u, hu⟩ := List.head?_eq_some_iff.mp hc
      exact Or.inr ⟨c, u, hu, List.contains_iff_mem.mp hmem⟩
  | decimal sign ds hsign hne hds hint =>
      rcases hsign with rfl | rfl | rfl
      · obtain ⟨c, u, rfl⟩ := List.exists_cons_of_ne_nil hne
        obtain ⟨hlo, hhi⟩ := hds c List.mem_cons_self
        refine Or.inr ⟨c, u, rfl, hletters (mem_letters (Or.inr (Or.inr ?_)))⟩
        unfold isAlnum
        rw [decide_eq_true hlo, decide_eq_true hhi]
        rfl
      · exact Or.inr ⟨0x2b, ds, rfl, by decide +kernel⟩
      · exact Or.inr ⟨0x2d, ds, rfl, by decide +kernel⟩
  | string s => exact Or.inl ⟨s, rfl⟩
  | symbol s hne hfree hnumber =>
      obtain ⟨c, u, hu⟩ := List.exists_cons_of_ne_nil hne
      refine Or.inr ⟨c, u, hu, hletters (symbol_letters s c ?_).1⟩
      rw [hu]
      exact List.mem_cons_self
  | command name hname hfree =>
      exact Or.inr ⟨0x2e, name, rfl, hletters (mem_letters (Or.inr (Or.inl rfl)))⟩

theorem text_ne_nil (i : Item) : i.text ≠ [] := by
  rcases head_text i with ⟨s, rfl⟩ | ⟨c, u, hu, -⟩
  · exact List.cons_ne_nil _ _
  · rw [hu]
    exact List.cons_ne_nil c u

/-- **No rule goes on from the text of an item over a separator.** -/
theorem ends_text (i : Item) {c : Byte} (hc : c ∈ separators) (text : Str) :
    Ends rules i.text (c :: text) := by
  rcases head_text i with ⟨s, rfl⟩ | ⟨a, u, hu, ha⟩
  · exact ends_close closes_quote s.body text c
  · rw [hu]
    exact ends_cons hc ha avoids_separators u text

/-! ## Printed texts -/

/-- **What the scanner makes of a printed text**: the tokens of the items, with their texts. -/
theorem lexemes_of_printed {items : List Item} {text : Str} (h : Printed items text) :
    lexemes text = items.flatMap fun i => (i.returned.map (Lexeme.mk i.text)).toList := by
  unfold lexemes
  induction h with
  | nil => rfl
  | last i =>
      have hscan := scan_append (text_ne_nil i) (ends_nil i.text) (whole_text i)
      rw [List.append_nil] at hscan
      rw [hscan, List.flatMap_singleton]
      exact List.append_nil _
  | @cons i j is text c hc _ ih =>
      obtain ⟨hspent, hwhole⟩ := whole_separator c hc
      have hseparator : scan rules (c :: text) = scan rules text :=
        scan_append (List.cons_ne_nil c []) (ends_spent hspent text) hwhole
      rw [scan_append (text_ne_nil i) (ends_text i hc text) (whole_text i), hseparator, ih]
      rfl

/-- What the scanner puts into `yylval.sval` for a token: a copy of the text, as a C string. -/
def sval : Token → Option Str
  | .symbol s => some s.text
  | .string s => some s.sval
  | _ => none

/-- The scanner gives the items back: their texts with their tokens, and a string value that is the
text. -/
structure LexesBack (items : List Item) (text : Str) : Prop where
  lexemes : lexemes text = items.map Item.lexeme
  values : ∀ i ∈ items, ∀ v, sval i.token = some v → v = i.text

/-- The item is not the symbol `n`, and not a string with a NUL. -/
def Item.Survives : Item → Prop
  | .symbol s _ _ _ => s.text ≠ str "n"
  | .string s => (0 : Byte) ∉ s.body
  | _ => True

/-- All items are returned iff each is. -/
theorem returned_all_iff (items : List Item) :
    (items.flatMap fun i => (i.returned.map (Lexeme.mk i.text)).toList) = items.map Item.lexeme ↔
      ∀ i ∈ items, i.returned = some i.token := by
  have hle : ∀ items : List Item,
      (items.flatMap fun i => (i.returned.map (Lexeme.mk i.text)).toList).length ≤ items.length := by
    intro items
    induction items with
    | nil => exact Nat.le_refl 0
    | cons i items ih =>
        rw [List.flatMap_cons, List.length_append, List.length_cons]
        have hone : (i.returned.map (Lexeme.mk i.text)).toList.length ≤ 1 := by
          cases i.returned <;> simp
        omega
  induction items with
  | nil => exact iff_of_true rfl fun i hi => (List.not_mem_nil hi).elim
  | cons i items ih =>
      rw [List.flatMap_cons, List.map_cons, List.forall_mem_cons]
      cases hi : i.returned with
      | none =>
          -- one lexeme is missing
          refine iff_of_false ?_ (fun h => by cases h.1)
          intro heq
          have hlen := congrArg List.length heq
          have hshort := hle items
          simp only [Option.map_none, Option.toList_none, List.nil_append, List.length_cons,
            List.length_map] at hlen
          omega
      | some t =>
          simp only [Option.map_some, Option.toList_some, List.singleton_append, List.cons.injEq,
            Item.lexeme, Lexeme.mk.injEq, true_and, Option.some.injEq]
          exact and_congr_right' ih

/-- **When lexing undoes printing**: when no symbol is `n` and no string has a NUL. -/
theorem lexesBack_iff (items : List Item) (text : Str) (h : Printed items text) :
    LexesBack items text ↔ ∀ i ∈ items, i.Survives := by
  have hboth : LexesBack items text ↔ ∀ i ∈ items,
      i.returned = some i.token ∧ ∀ v, sval i.token = some v → v = i.text := by
    have hlexemes := returned_all_iff items
    rw [← lexemes_of_printed h] at hlexemes
    constructor
    · intro hback i hi
      exact ⟨hlexemes.mp hback.lexemes i hi, hback.values i hi⟩
    · intro hall
      exact ⟨hlexemes.mpr fun i hi => (hall i hi).1, fun i hi => (hall i hi).2⟩
  rw [hboth]
  refine forall₂_congr fun i _ => ?_
  cases i with
  | word p hp =>
      refine iff_of_true ⟨rfl, fun v hv => ?_⟩ trivial
      have hnone : ∀ p ∈ fixedWords, sval p.2 = none := by decide +kernel
      rw [show (Item.word p hp).token = p.2 from rfl, hnone p hp] at hv
      cases hv
  | decimal sign ds hsign hne hds hint => exact iff_of_true ⟨rfl, fun v hv => by cases hv⟩ trivial
  | string s =>
      show (_ ∧ ∀ v, some s.sval = some v → v = 0x22 :: (s.body ++ [0x22])) ↔ _
      refine Iff.trans ?_ s.sval_eq_iff
      constructor
      · exact fun hs => hs.2 s.sval rfl
      · exact fun hs => ⟨rfl, fun v hv => by rw [← Option.some.inj hv, hs]⟩
  | symbol s hne hfree hnumber =>
      show ((if _ then _ else _) = some (Token.symbol s) ∧ _) ↔ s.text ≠ str "n"
      by_cases hn : s.text = str "n"
      · rw [if_pos hn]
        exact iff_of_false (fun hs => by cases hs.1) (not_not_intro hn)
      · rw [if_neg hn]
        exact iff_of_true ⟨rfl, fun v hv => (Option.some.inj hv).symm⟩ hn
  | command name hname hfree => exact iff_of_true ⟨rfl, fun v hv => by cases hv⟩ trivial

/-- The name of a label. -/
def loopName : Item :=
  .symbol (sym "loop") (by decide) (by decide +kernel) (by
    rintro (⟨-, hall⟩ | ⟨c, ds, heq, -⟩)
    · exact absurd (hall 0x6c (by decide)) (by decide)
    · cases heq)

/-- A name that is one letter. -/
def nName : Item :=
  .symbol (sym "n") (by decide) (by decide +kernel) (by
    rintro (⟨-, hall⟩ | ⟨c, ds, heq, -⟩)
    · exact absurd (hall 0x6e (by decide)) (by decide)
    · cases heq)

/-- The colon behind a label. -/
def colon : Item := .word (str ":", .colon) (by decide +kernel)

/-- An instruction of one word. -/
def ret : Item := .word (str "ret", .ret) (by decide +kernel)

/-- A label and an instruction. -/
theorem loop_lexesBack : LexesBack [loopName, colon, ret] (str "loop : ret") := by
  have hspace : (0x20 : Byte) ∈ separators := List.mem_cons_self
  have hprinted : Printed [loopName, colon, ret] (str "loop : ret") :=
    .cons loopName colon hspace (.cons colon ret hspace (.last ret))
  refine (lexesBack_iff [loopName, colon, ret] (str "loop : ret") hprinted).mpr ?_
  simp only [List.forall_mem_cons, List.not_mem_nil, false_implies, implies_true, and_true]
  refine ⟨?_, trivial, trivial⟩
  show (sym "loop").text ≠ str "n"
  decide

/-- The symbol `n` vanishes. -/
theorem n_vanishes : ¬ ∀ items text, Printed items text → LexesBack items text := by
  intro h
  have hall := (lexesBack_iff [nName] (str "n") (.last nName)).mp (h _ _ (.last nName))
  exact hall nName List.mem_cons_self rfl

end Printing

end RiscvAssembler
