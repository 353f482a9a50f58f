import RiscvAssembler.Grammar
import RiscvAssembler.Lib.Lex

/-!
# The scanner (`riscvass.l`)

`Token` has a constructor for every terminal that some rule returns, with the semantic value that the
rule puts into `yylval`. Line and column are left out: nothing but a message reads them.

* `rules`: the rules, in the order of the source.
* `lexemes`, `tokens`: what the scanner returns for the contents of a file, up to its end.
* `lexemes_step`: at every place some rule matches, so that flex's default rule is never used.
* `imm_eq_narrowed`: an `IMM` is the integer that its text denotes, brought into a `long` and cut to an
  `int`.
-/

namespace RiscvAssembler

open Bytes Lex Lex.Regex

/-! ## Tokens -/

deriving instance DecidableEq for StringLit

deriving instance DecidableEq for Lexeme

/-- Source: `riscvass.y`, the `%token` lines, as far as `riscvass.l` returns them. -/
inductive Token
  | reg (n : Reg)
  | imm (ival : Word)
  | symbol (s : Symbol)
  | string (s : StringLit)
  | parenOpen | parenClose | colon | pct | comma | hi | lo
  | jump | add | addi | and | andi | sub | li | beq | bne | bge | bgeu | blt | bltu | la | lb | lbu
  | lh | lhu | lw | mov | or | ori | sb | sh | sll | slli | slt | slti | sltiu | sltu | sra | srai
  | srl | srli | sw | xor | xori | ecall | ebreak | ret | jal | jalr | fence | lui | auipc
  | sectionDirective | dText | dData | dRodata | dBss | dSize | dGlobal | dAscii | directiveCommand
  deriving DecidableEq

namespace Scanner

/-! ## Numbers in texts -/

/-- The value of a digit, or of a letter as a digit. -/
def digitValue (c : Byte) : ℕ :=
  if c ≤ 0x39 then c.toNat - 0x30
  else if c ≤ 0x5a then c.toNat - 0x41 + 10
  else c.toNat - 0x61 + 10

/-- The number that the digits at the start of a text denote. -/
def digits (base : ℕ) (text : Str) : ℕ :=
  (text.takeWhile fun c => isAlnum c && decide (digitValue c < base)).foldl
    (fun n c => base * n + digitValue c) 0

/-- The integer that a text denotes, with its sign. -/
def integer (base : ℕ) : Str → ℤ
  | [] => 0
  | c :: text =>
    if c = 0x2d then -digits base text
    else if c = 0x2b then digits base text
    else digits base (c :: text)

/-- `strtol` with a 64-bit `long`: values outside of its range are replaced by the nearest one in it.
No text that it gets here starts with a blank, or with a prefix for the base. -/
def strtol (base : ℕ) (text : Str) : BitVec 64 :=
  BitVec.ofInt 64 (max (-2 ^ 63) (min (2 ^ 63 - 1) (integer base text)))

/-- `atoi`: the value of `strtol` in base 10, narrowed to an `int`. -/
def atoi (text : Str) : Word := (strtol 10 text).setWidth 32

/-- The integer that a literal denotes, whatever its size. -/
def literalValue : Str → ℤ
  | 0x30 :: c :: text =>
    if c = 0x78 ∨ c = 0x58 then integer 16 text
    else if c = 0x62 ∨ c = 0x42 then integer 2 text
    else integer 10 (0x30 :: c :: text)
  | text => integer 10 text

/-! ## Patterns -/

/-- `[lo-hi]`. -/
def range (lo hi : Byte) : Regex Byte := cls fun c => decide (lo ≤ c) && decide (c ≤ hi)

/-- A class of listed characters. -/
def oneOf (s : String) : Regex Byte := cls fun c => (str s).contains c

/-- `[^c]`. -/
def notOneOf (c : Byte) : Regex Byte := cls fun d => d != c

/-- A text in quotes. -/
def quoted (s : String) : Regex Byte := word (str s)

/-- `[0-9]`. -/
def digit : Regex Byte := range 0x30 0x39

/-- `[_]?[a-zA-Z0-9]*`. -/
def symbolRe : Regex Byte := seq (opt (oneOf "_")) (star (cls isAlnum))

/-- `\"([^\"]*)\"`. -/
def stringRe : Regex Byte := seq (oneOf "\"") (seq (star (notOneOf 0x22)) (oneOf "\""))

theorem mem_oneOf {s : String} {w : Str} : w ∈ (oneOf s).lang ↔ ∃ c ∈ str s, w = [c] := by
  rw [oneOf, mem_cls]
  simp only [List.contains_iff_mem]

/-- What the pattern of symbols matches. -/
theorem isSymbolText_of_accepts {w : Str} (h : symbolRe.accepts w = true) : isSymbolText w = true := by
  rw [accepts_iff, symbolRe, mem_seq] at h
  obtain ⟨u, hu, v, hv, rfl⟩ := h
  rw [mem_star_cls] at hv
  rcases mem_opt.mp hu with rfl | hu
  · cases v with
    | nil => rfl
    | cons c v =>
        rw [List.all_cons, Bool.and_eq_true] at hv
        simp only [List.nil_append, isSymbolText, hv.1, hv.2, Bool.or_true, Bool.and_true]
  · obtain ⟨c, hc, rfl⟩ := mem_oneOf.mp hu
    have hunderscore : c = 0x5f := by simpa [str] using hc
    simp only [List.singleton_append, isSymbolText, hunderscore, hv, beq_self_eq_true, Bool.true_or,
      Bool.and_true]

/-- What the pattern of strings matches. -/
theorem noQuote_of_accepts {w : Str} (h : stringRe.accepts w = true) :
    (0x22 : Byte) ∉ (w.drop 1).dropLast := by
  rw [accepts_iff, stringRe, mem_seq] at h
  obtain ⟨u, hu, v, hv, rfl⟩ := h
  obtain ⟨body, hbody, close, hclose, rfl⟩ := mem_seq.mp hv
  obtain ⟨c, -, rfl⟩ := mem_oneOf.mp hu
  obtain ⟨d, -, rfl⟩ := mem_oneOf.mp hclose
  rw [notOneOf, mem_star_cls] at hbody
  simp only [List.singleton_append, List.drop_succ_cons, List.drop_zero, List.dropLast_concat]
  intro hmem
  simpa using List.all_eq_true.mp hbody _ hmem

/-! ## Rules -/

/-- A rule that returns no token. -/
def skip (re : Regex Byte) : Rule Byte Token := ⟨re, fun _ _ => none⟩

/-- A rule that returns a token without a value. -/
def returns (re : Regex Byte) (t : Token) : Rule Byte Token := ⟨re, fun _ _ => some t⟩

/-- A rule for an immediate. -/
def immediate (re : Regex Byte) (ival : Str → Word) : Rule Byte Token :=
  ⟨re, fun text _ => some (.imm (ival text))⟩

/-- A rule for a register, whose number has five bits. -/
def register (re : Regex Byte) (ival : Str → Word) : Rule Byte Token :=
  ⟨re, fun text _ => some (.reg ((ival text).setWidth 5))⟩

/-- Source: `riscvass.l`, the rules for blanks, comments, line ends and punctuation. -/
def blankRules : List (Rule Byte Token) :=
  [skip (oneOf "\t "),
    skip (seq (quoted "#") (star (notOneOf 0x0a))),
    skip (oneOf "\n"),
    -- the class of a backslash and an `n`
    skip (oneOf "\\n"),
    returns (quoted "(") .parenOpen,
    returns (quoted ")") .parenClose,
    returns (quoted ":") .colon,
    returns (quoted "%") .pct,
    returns (quoted "j") .jump]

/-- Source: `riscvass.l`, the rules for mnemonics. -/
def mnemonicRules : List (Rule Byte Token) :=
  [returns (quoted "add") .add,
    returns (quoted "addi") .addi,
    returns (quoted "and") .and,
    returns (quoted "andi") .andi,
    returns (quoted "sub") .sub,
    returns (quoted "li") .li,
    returns (quoted "beq") .beq,
    returns (quoted "bne") .bne,
    returns (quoted "bge") .bge,
    returns (quoted "bgeu") .bgeu,
    returns (quoted "blt") .blt,
    returns (quoted "bltu") .bltu,
    returns (quoted "la") .la,
    returns (quoted "lb") .lb,
    returns (quoted "lbu") .lbu,
    returns (quoted "lh") .lh,
    returns (quoted "lhu") .lhu,
    returns (quoted "lw") .lw,
    returns (quoted "mv") .mov,
    returns (quoted "or") .or,
    returns (quoted "ori") .ori,
    returns (quoted "sb") .sb,
    returns (quoted "sh") .sh,
    returns (quoted "sll") .sll,
    returns (quoted "slli") .slli,
    returns (quoted "slt") .slt,
    returns (quoted "slti") .slti,
    returns (quoted "sltiu") .sltiu,
    returns (quoted "sltu") .sltu,
    returns (quoted "sra") .sra,
    returns (quoted "srai") .srai,
    returns (quoted "srl") .srl,
    returns (quoted "srli") .srli,
    returns (quoted "sw") .sw,
    returns (quoted "xor") .xor,
    returns (quoted "xori") .xori,
    returns (quoted "ecall") .ecall,
    returns (quoted "ebreak") .ebreak,
    returns (quoted "ret") .ret,
    returns (quoted "jal") .jal,
    returns (quoted "jalr") .jalr,
    returns (quoted "fence") .fence,
    returns (quoted "lui") .lui,
    returns (quoted "auipc") .auipc,
    returns (quoted "hi") .hi,
    returns (quoted "lo") .lo]

/-- Source: `riscvass.l`, the rules that return `IMM`. -/
def immediateRules : List (Rule Byte Token) :=
  [immediate (seq (opt (oneOf "+-")) (plus digit)) atoi,
    immediate
      (seq (quoted "0") (seq (oneOf "xX")
        (plus (cls fun c => isAlnum c && decide (digitValue c < 16)))))
      fun text => (strtol 16 (text.drop 2)).setWidth 32,
    immediate (seq (quoted "0") (seq (oneOf "bB") (plus (oneOf "01"))))
      fun text => (strtol 2 (text.drop 2)).setWidth 32]

/-- The patterns of registers, each with what its rule puts into `yylval.ival`.
Source: `riscvass.l`, the rules that return `REG`. -/
def registers : List (Regex Byte × (Str → Word)) :=
  [(quoted "zero", fun _ => 0),
    (quoted "ra", fun _ => 1),
    (quoted "sp", fun _ => 2),
    (quoted "gp", fun _ => 3),
    (quoted "tp", fun _ => 4),
    (seq (oneOf "a") (range 0x30 0x37), fun text => 10 + atoi (text.drop 1)),
    (seq (oneOf "t") (range 0x30 0x32), fun text => 5 + atoi (text.drop 1)),
    (seq (oneOf "t") (range 0x33 0x36), fun text => 25 + atoi (text.drop 1)),
    (seq (oneOf "s") (oneOf "01"), fun text => 8 + atoi (text.drop 1)),
    (seq (oneOf "s") (alt (range 0x32 0x39) (seq (oneOf "1") (oneOf "01"))),
      fun text => 16 + atoi (text.drop 1)),
    (seq (oneOf "x") (alt digit (alt (seq (oneOf "12") digit) (seq (oneOf "3") (oneOf "01")))),
      fun text => atoi (text.drop 1))]

/-- Source: `riscvass.l`, the rules from `.section` on. -/
def directiveRules : List (Rule Byte Token) :=
  [returns (quoted ".section") .sectionDirective,
    returns (quoted ".text") .dText,
    returns (quoted ".data") .dData,
    returns (quoted ".rodata") .dRodata,
    returns (quoted ".bss") .dBss,
    returns (quoted ".size") .dSize,
    returns (seq (quoted ".glob") (seq (opt (oneOf "a")) (quoted "l"))) .dGlobal,
    returns (quoted ".ascii") .dAscii,
    returns (seq (quoted ".") (star (cls isAlnum))) .directiveCommand,
    ⟨symbolRe, fun text h => some (.symbol ⟨text, isSymbolText_of_accepts h⟩)⟩,
    ⟨stringRe, fun text h => some (.string ⟨(text.drop 1).dropLast, noQuote_of_accepts h⟩)⟩,
    returns (quoted ",") .comma,
    -- `unknown token`
    skip (notOneOf 0x0a)]

/-- All rules, in the order of the source. -/
def rules : List (Rule Byte Token) :=
  blankRules ++ mnemonicRules ++ immediateRules ++ (registers.map fun p => register p.1 p.2) ++
    directiveRules

/-- The tokens of a file, with their texts. -/
def lexemes (contents : List Byte) : List (Lexeme Byte Token) := scan rules contents

/-- The tokens that `yylex` returns, one call after the other, up to the end of the file. -/
def tokens (contents : List Byte) : List Token := (lexemes contents).map Lexeme.token

/-! ## What the rules match -/

/-- At every place some rule matches. -/
theorem exists_choose_rules (c : Byte) (cs : Str) : ∃ n t, choose rules (c :: cs) = some (n, t) := by
  have hle : 1 ≤ (c :: cs).length := Nat.succ_le_succ (Nat.zero_le _)
  by_cases hc : c = 0x0a
  · have hmem : skip (oneOf "\n") ∈ rules := by simp [rules, blankRules]
    refine exists_choose hmem Nat.one_pos hle ((accepts_iff _ _).mpr (mem_oneOf.mpr ⟨c, ?_, rfl⟩))
    rw [hc]
    decide
  · have hmem : skip (notOneOf 0x0a) ∈ rules := by simp [rules, directiveRules]
    refine exists_choose hmem Nat.one_pos hle ((accepts_iff _ _).mpr (mem_cls.mpr ⟨c, ?_, rfl⟩))
    simpa using hc

/-- **One call of the scanner**, unless it is at the end of the file. -/
theorem lexemes_step (c : Byte) (cs : Str) :
    ∃ n t, choose rules (c :: cs) = some (n, t) ∧
      lexemes (c :: cs) =
        (t.map (Lexeme.mk ((c :: cs).take n))).toList ++ lexemes ((c :: cs).drop n) := by
  obtain ⟨n, t, h⟩ := exists_choose_rules c cs
  exact ⟨n, t, h, scan_of_choose h⟩

/-! ## Literals -/

/-- A rule that returns an `IMM` is one of the rules for literals. -/
theorem mem_immediateRules {rule : Rule Byte Token} (hrule : rule ∈ rules) {text : Str}
    {h : rule.re.accepts text = true} {ival : Word}
    (himm : rule.action text h = some (.imm ival)) : rule ∈ immediateRules := by
  have hblank : ∀ rule ∈ blankRules, ∀ text h, rule.action text h ≠ some (.imm ival) := by
    simp [blankRules, skip, returns]
  have hmnemonic : ∀ rule ∈ mnemonicRules, ∀ text h, rule.action text h ≠ some (.imm ival) := by
    simp [mnemonicRules, returns]
  have hdirective : ∀ rule ∈ directiveRules, ∀ text h, rule.action text h ≠ some (.imm ival) := by
    simp [directiveRules, skip, returns]
  simp only [rules, List.mem_append, List.mem_map] at hrule
  rcases hrule with (((hrule | hrule) | hrule) | ⟨p, -, rfl⟩) | hrule
  · exact absurd himm (hblank rule hrule text h)
  · exact absurd himm (hmnemonic rule hrule text h)
  · exact hrule
  · cases himm
  · exact absurd himm (hdirective rule hrule text h)

/-- The `int` that a literal becomes: its integer as a `long`, cut. -/
def narrowed (v : ℤ) : Word := (BitVec.ofInt 64 (max (-2 ^ 63) (min (2 ^ 63 - 1) v))).setWidth 32

/-- The low bits of a `long`. -/
theorem toNat_cut (c : ℤ) : (((BitVec.ofInt 64 c).setWidth 32).toNat : ℤ) = c % 2 ^ 32 := by
  rw [BitVec.toNat_setWidth, BitVec.toNat_ofInt]
  push_cast
  omega

/-- A value that a `long` holds is cut to its low bits. -/
theorem narrowed_eq {v : ℤ} (h : -2 ^ 63 ≤ v ∧ v < 2 ^ 63) : narrowed v = BitVec.ofInt 32 v := by
  apply BitVec.eq_of_toNat_eq
  unfold narrowed
  have hcut := toNat_cut v
  rw [min_eq_right (by omega), max_eq_right (by omega), BitVec.toNat_ofInt]
  push_cast
  omega

/-- What the rule for decimal literals matches: digits, at least one, with or without a sign. -/
theorem mem_decimal {text : Str} :
    text ∈ (seq (opt (oneOf "+-")) (plus digit)).lang ↔
      ∃ sign ds, (sign = [] ∨ sign = [0x2b] ∨ sign = [0x2d]) ∧ ds ≠ [] ∧
        (∀ c ∈ ds, 0x30 ≤ c ∧ c ≤ 0x39) ∧ text = sign ++ ds := by
  have hdigits : ∀ ds : Str, ds ∈ (plus digit).lang ↔ ds ≠ [] ∧ ∀ c ∈ ds, 0x30 ≤ c ∧ c ≤ 0x39 := by
    intro ds
    rw [digit, range, mem_plus_cls, List.all_eq_true]
    simp only [Bool.and_eq_true, decide_eq_true_eq]
  have hsign : ∀ sign : Str, sign ∈ (opt (oneOf "+-")).lang ↔
      sign = [] ∨ sign = [0x2b] ∨ sign = [0x2d] := by
    intro sign
    rw [mem_opt, mem_oneOf]
    simp [str]
  rw [mem_seq]
  constructor
  · rintro ⟨sign, hs, ds, hds, rfl⟩
    obtain ⟨hne, hall⟩ := (hdigits ds).mp hds
    exact ⟨sign, ds, (hsign sign).mp hs, hne, hall, rfl⟩
  · rintro ⟨sign, ds, hs, hne, hall, rfl⟩
    exact ⟨sign, (hsign sign).mpr hs, ds, (hdigits ds).mpr ⟨hne, hall⟩, rfl⟩

/-- What a rule for literals with a prefix matches. -/
theorem prefixed_of_mem {text : Str} {s : String} {re : Regex Byte}
    (h : text ∈ (seq (quoted "0") (seq (oneOf s) re)).lang) :
    ∃ c ∈ str s, ∃ ds ∈ re.lang, text = 0x30 :: c :: ds := by
  obtain ⟨u, hu, v, hv, rfl⟩ := mem_seq.mp h
  obtain ⟨w, hw, ds, hds, rfl⟩ := mem_seq.mp hv
  obtain ⟨c, hc, rfl⟩ := mem_oneOf.mp hw
  rw [mem_word.mp hu]
  exact ⟨c, hc, ds, hds, rfl⟩

/-- A text of digits behind a sign denotes a decimal integer. -/
theorem literalValue_decimal {sign ds : Str} (hsign : sign = [] ∨ sign = [0x2b] ∨ sign = [0x2d])
    (hds : ∀ c ∈ ds, 0x30 ≤ c ∧ c ≤ 0x39) :
    literalValue (sign ++ ds) = integer 10 (sign ++ ds) := by
  rcases hsign with rfl | rfl | rfl
  · unfold literalValue
    split
    · next c text heq =>
      have hc : 0x30 ≤ c ∧ c ≤ 0x39 := by
        apply hds
        rw [← List.nil_append ds, heq]
        simp
      have hhex : ¬ (c = 0x78 ∨ c = 0x58) := by
        rintro (rfl | rfl) <;> exact absurd hc (by decide)
      have hbinary : ¬ (c = 0x62 ∨ c = 0x42) := by
        rintro (rfl | rfl) <;> exact absurd hc (by decide)
      rw [if_neg hhex, if_neg hbinary, heq]
      rfl
    · rfl
  · rfl
  · rfl

theorem literalValue_hex {c : Byte} (hc : c = 0x78 ∨ c = 0x58) (ds : Str) :
    literalValue (0x30 :: c :: ds) = integer 16 ds :=
  if_pos hc

theorem literalValue_binary {c : Byte} (hc : c = 0x62 ∨ c = 0x42) (ds : Str) :
    literalValue (0x30 :: c :: ds) = integer 2 ds := by
  have hhex : ¬ (c = 0x78 ∨ c = 0x58) := by
    rcases hc with rfl | rfl <;> decide
  exact (if_neg hhex).trans (if_pos hc)

/-- **What a literal is worth.** -/
theorem imm_eq_narrowed {contents : List Byte} {x : Lexeme Byte Token} {ival : Word}
    (hx : x ∈ lexemes contents) (himm : x.token = .imm ival) :
    ival = narrowed (literalValue x.text) := by
  obtain ⟨rule, hrule, hw, haction⟩ := mem_scan hx
  rw [himm] at haction
  have hmem := mem_immediateRules hrule haction
  have hlang := (accepts_iff _ _).mp hw
  simp only [immediateRules, List.mem_cons, List.not_mem_nil, or_false] at hmem
  rcases hmem with rfl | rfl | rfl
  · cases haction
    obtain ⟨sign, ds, hsign, -, hds, htext⟩ := mem_decimal.mp hlang
    rw [htext, literalValue_decimal hsign hds]
    rfl
  · cases haction
    obtain ⟨c, hc, ds, -, htext⟩ := prefixed_of_mem hlang
    have hprefix : c = 0x78 ∨ c = 0x58 := by simpa [str] using hc
    rw [htext, literalValue_hex hprefix]
    rfl
  · cases haction
    obtain ⟨c, hc, ds, -, htext⟩ := prefixed_of_mem hlang
    have hprefix : c = 0x62 ∨ c = 0x42 := by simpa [str] using hc
    rw [htext, literalValue_binary hprefix]
    rfl

end Scanner

end RiscvAssembler
