import RiscvAssembler.Lib.Linkable
import RiscvAssembler.Tables

/-!
# The object as its users see it

`Object` is the object without its tables: the words of code, the items in order, and maps for labels,
targets and symbols. There are no offsets, no string tables, no headers, and nothing that looking up a
name could change.

* `Represents`: an `ELF32` stands for an `Object`. Every call keeps this (`Represents.apply`).
* `answers`: whatever is asked of an object after any calls, the answer is that of the `Object`; and what
  a linker reads in the file are its contents.
* `file_eq_iff`: two sequences of calls have one file iff they have the same contents.
* `file_eq_of_filter`: code and data can be added in any order relative to each other.
-/

namespace RiscvAssembler

open Bytes Gabi

/-! ## Objects -/

/-- What the users of an object know of it. -/
structure Object where
  text : List Word := []
  items : List Item := []
  labels : Str → Option Word := fun _ => none
  targets : Word → Word := fun _ => 0
  pending : List UnresolvedInst32 := []
  symbols : Str → Option Sym := fun _ => none

namespace Object

/-- The index of the last word. -/
def last (o : Object) : Word := BitVec.ofNat 32 (o.text.length - 1)

/-- A new label stands for the index of the last word, and so does its hash. -/
def define (o : Object) (label sectionName : Str) : Object :=
  if (o.labels label).isSome then o
  else
    { o with
      items := o.items ++ [⟨label, sectionName, none⟩]
      labels := Function.update o.labels label (some o.last)
      targets := Function.update o.targets (hasher label) o.last }

/-- What a call means. -/
def apply (o : Object) : Op → Object
  | .initLabel label _ sectionName => o.define label sectionName
  | .updateLabelVisibility label _ => o.define label (str ".text")
  | .resolveLabel _ => o
  | .addSymbol symText sectionIdx offsetIdx symtabIdx isResolved isLabel =>
    { o with
      symbols := Function.update o.symbols symText
        (some ⟨sectionIdx, offsetIdx, symtabIdx, isResolved, isLabel⟩) }
  | .addToText instr => { o with text := o.text ++ [instr] }
  | .addProgramData varName value sectionName =>
    { o with items := o.items ++ [⟨varName, sectionName, some value⟩] }
  | .addToUnresolvedInsns insnNumber insnType hash pcInsnNumber =>
    { o with pending := o.pending ++ [⟨insnNumber, pcInsnNumber, insnType, hash⟩] }
  | .resolveUnresolvedInstructions => { o with text := o.pending.foldl (patch o.targets) o.text }

/-- The object after a sequence of calls. -/
def after (ops : List Op) : Object := ops.foldl apply {}

end Object

/-- What a linker gets from an object. -/
structure Contents where
  text : List Byte
  data : List Byte
  symbols : List Gabi.Symbol

/-- The symbol of an item behind other items: data is where the other items' data ends. -/
def Item.symbol (before : List Item) (item : Item) : Gabi.Symbol where
  name := cString item.name
  value := if item.value = none then 0 else (before.flatMap Item.bytes).length
  size := 0
  info := 0
  other := 0
  shndx := (ParserState.shndx item.sectionName).toNat

/-- The symbols of items. -/
def symbolsOf (items : List Item) : List Gabi.Symbol :=
  items.mapIdx fun k item => item.symbol (items.take k)

@[simp] theorem length_symbolsOf (items : List Item) : (symbolsOf items).length = items.length :=
  List.length_mapIdx

/-- The contents of an object. -/
def Object.contents (o : Object) : Contents where
  text := o.text.flatMap fun w => leBytes 4 w.toNat
  data := o.items.flatMap Item.bytes
  symbols := symbolsOf o.items

/-! ## What an `ELF32` stands for -/

/-- A map after an insertion is an updated function. -/
theorem lookup_insert_eq {α β : Type} [DecidableEq α] {m : AList fun _ : α => β} {f : α → Option β}
    (h : ∀ a, m.lookup a = f a) (a : α) (b : β) (a' : α) :
    (m.insert a b).lookup a' = Function.update f a (some b) a' := by
  by_cases hne : a' = a
  · rw [hne, AList.lookup_insert, Function.update_self]
  · rw [AList.lookup_insert_ne hne, Function.update_of_ne hne, h]

/-- The `ELF32` stands for the object. -/
structure Represents (e : ELF32) (o : Object) : Prop where
  text : e.secText.data = o.text
  labels : ∀ l, e.resolvedLabels.lookup l = o.labels l
  targets : e.target = o.targets
  pending : e.unresolvedInstructions = o.pending
  symbols : ∀ y, e.symbols.lookup y = o.symbols y
  tables : ∃ known, e.Tables known o.items
  shaped : e.Shaped

namespace Represents

variable {e : ELF32} {o : Object}

theorem init : Represents ELF32.init {} :=
  ⟨rfl, fun _ => rfl, rfl, rfl, fun _ => rfl, ⟨[], ELF32.tables_init⟩, ELF32.shaped_init⟩

theorem labelExists (h : Represents e o) (l : Str) : e.labelExists l = (o.labels l).isSome := by
  rw [Bool.eq_iff_iff, e.labelExists_iff, h.labels, Option.isSome_iff_exists]

/-- A label. -/
theorem define (h : Represents e o) (label : Str) (isGlobal : Bool) (sectionName : Str) :
    Represents (e.initLabel label isGlobal sectionName) (o.define label sectionName) := by
  cases hl : (o.labels label).isSome with
  | true =>
      have hexists : e.labelExists label = true := (h.labelExists label).trans hl
      rwa [e.initLabel_of_exists _ _ hexists, Object.define, if_pos hl]
  | false =>
      have hnew : e.labelExists label = false := (h.labelExists label).trans hl
      obtain ⟨hresolved, haddr⟩ := e.initLabel_of_new sectionName isGlobal hnew
      have hlast : BitVec.ofNat 32 e.secText.lastIndex = o.last := by
        rw [Text.lastIndex, Object.last, h.text]
        split_ifs with hpos
        · rfl
        · rw [Nat.eq_zero_of_not_pos hpos]
      rw [Object.define, if_neg (by simp [hl])]
      constructor
      case text => rw [e.secText_initLabel]; exact h.text
      case labels =>
        intro l
        rw [hresolved, hlast]
        exact lookup_insert_eq h.labels label o.last l
      case targets =>
        funext hash
        show _ = Function.update o.targets (hasher label) o.last hash
        rw [ELF32.target, haddr, hlast]
        by_cases hne : hash = hasher label
        · rw [hne, AList.lookup_insert, Function.update_self, Option.getD_some]
        · rw [AList.lookup_insert_ne hne, Function.update_of_ne hne, ← h.targets, ELF32.target]
      case pending => rw [e.unresolvedInstructions_initLabel]; exact h.pending
      case symbols => rw [e.symbols_initLabel]; exact h.symbols
      case tables =>
        obtain ⟨known, htables⟩ := h.tables
        have hitem := htables.initLabel label isGlobal sectionName
        rw [if_neg (by rw [← htables.known, hnew]; simp)] at hitem
        exact ⟨_, hitem⟩
      case shaped => exact h.shaped.initLabel label isGlobal sectionName

/-- **Every call means what it does.** -/
theorem apply (h : Represents e o) (op : Op) : Represents (op.apply e) (o.apply op) := by
  obtain ⟨known, htables⟩ := h.tables
  have hshaped := h.shaped.apply op
  cases op with
  | initLabel label isGlobal sectionName => exact h.define label isGlobal sectionName
  | updateLabelVisibility label isGlobal =>
      have hdefine := h.define label isGlobal (str ".text")
      rwa [← e.updateLabelVisibility_eq] at hdefine
  | resolveLabel label =>
      show Represents (e.resolveLabel label).1 o
      cases hl : e.resolvedLabels.lookup label with
      | some addr => rwa [e.resolveLabel_of_some hl]
      | none =>
          rw [e.resolveLabel_of_none hl]
          refine { h with tables := ⟨known, ?_⟩, shaped := ?_ }
          · exact htables.of_kept rfl rfl rfl rfl rfl
          · have hres := h.shaped.apply (.resolveLabel label)
            rwa [Op.apply, e.resolveLabel_of_none hl] at hres
  | addSymbol symText sectionIdx offsetIdx symtabIdx isResolved isLabel =>
      refine { h with symbols := ?_, tables := ⟨known, ?_⟩, shaped := hshaped }
      · exact lookup_insert_eq h.symbols symText _
      · exact htables.of_kept rfl rfl rfl rfl rfl
  | addToText instr =>
      refine { h with text := ?_, tables := ⟨known, ?_⟩, shaped := hshaped }
      · exact congrArg (· ++ [instr]) h.text
      · exact htables.of_kept rfl rfl rfl rfl rfl
  | addProgramData varName value sectionName =>
      obtain ⟨htext, hpending, hsymbols, hlabels, htargets⟩ :=
        e.addProgramData_kept varName value sectionName
      refine ⟨?_, ?_, ?_, ?_, ?_, ⟨known, htables.addProgramData varName value sectionName⟩, hshaped⟩
      · exact (congrArg Text.data htext).trans h.text
      · intro l
        exact (congrArg (AList.lookup l) hlabels).trans (h.labels l)
      · funext hash
        exact (congrArg (fun m => (AList.lookup hash m).getD 0) htargets).trans (congrFun h.targets hash)
      · exact hpending.trans h.pending
      · intro y
        exact (congrArg (AList.lookup y) hsymbols).trans (h.symbols y)
  | addToUnresolvedInsns insnNumber insnType hash pcInsnNumber =>
      refine { h with pending := ?_, tables := ⟨known, ?_⟩, shaped := hshaped }
      · exact congrArg (· ++ [⟨insnNumber, pcInsnNumber, insnType, hash⟩]) h.pending
      · exact htables.of_kept rfl rfl rfl rfl rfl
  | resolveUnresolvedInstructions =>
      have hitems := htables.apply .resolveUnresolvedInstructions
      have hkept : ∀ {α : Type} (f : ELF32 → α)
          (_ : ∀ e secText labelToAddr, f { e with secText, labelToAddr } = f e),
          f e.resolveUnresolvedInstructions = f e :=
        fun f hf => ELF32.project_resolveUnresolvedInstructions f hf e
      constructor
      case text =>
        show e.resolveUnresolvedInstructions.secText.data = o.pending.foldl (patch o.targets) o.text
        rw [e.text_resolveUnresolvedInstructions, h.pending, h.targets, h.text]
      case labels =>
        intro l
        exact (hkept (fun e => e.resolvedLabels.lookup l) fun _ _ _ => rfl).trans (h.labels l)
      case targets => exact (e.foldl_resolveInstruction _).2.trans h.targets
      case pending => exact (hkept (fun e => e.unresolvedInstructions) fun _ _ _ => rfl).trans h.pending
      case symbols =>
        intro y
        exact (hkept (fun e => e.symbols.lookup y) fun _ _ _ => rfl).trans (h.symbols y)
      case tables =>
        simp only [Op.knownAfter, Op.item, Op.label, Option.toList_none, List.append_nil] at hitems
        exact ⟨known, hitems⟩
      case shaped => exact hshaped

/-- **Every sequence of calls means what it does.** -/
theorem build (ops : List Op) : Represents (build ops) (Object.after ops) :=
  List.foldl_rel init fun op _ _ _ h => h.apply op

end Represents

/-! ## Reading the file -/

/-- What a linker reads in a file. -/
def readContents (f : List Byte) : Option Contents := do
  let ehdr ← readEhdr f
  let text ← sectionNamed f ehdr (str ".text")
  let data ← sectionNamed f ehdr (str ".data")
  let symtab ← sectionTyped f ehdr shtSymtab.toNat
  let textBytes ← sectionBytes f text
  let dataBytes ← sectionBytes f data
  let symbols ← readSymbols f ehdr symtab
  some ⟨textBytes, dataBytes, symbols⟩

/-- A reader of the header table finds the six sections. -/
theorem headers_of_recovered {f : List Byte} {e : ELF32} {v : ELF32.View} (h : ELF32.Recovered f e v)
    {null : Shdr} (hnull : sectionHeader f v.ehdr 0 = some null) :
    sectionHeaders f v.ehdr = some [null, v.strtab, v.shstrtab, v.symtab, v.text, v.data] := by
  have hget : ∀ i (hi : i < [null, v.strtab, v.shstrtab, v.symtab, v.text, v.data].length),
      sectionHeader f v.ehdr i =
        some [null, v.strtab, v.shstrtab, v.symtab, v.text, v.data][i] := by
    intro i hi
    have hcases : i = 0 ∨ i = 1 ∨ i = 2 ∨ i = 3 ∨ i = 4 ∨ i = 5 := by
      simp only [List.length_cons, List.length_nil] at hi
      omega
    rcases hcases with rfl | rfl | rfl | rfl | rfl | rfl
    · exact hnull
    · exact h.strtab.header
    · exact h.shstrtab.header
    · exact h.symtab.header
    · exact h.text.header
    · exact h.data.header
  rw [sectionHeaders, h.shnum]
  exact mapM_range_eq hget

/-- It finds them by their names and types. -/
theorem sections_of_recovered {f : List Byte} {e : ELF32} {v : ELF32.View} (h : ELF32.Recovered f e v) :
    sectionNamed f v.ehdr (str ".text") = some v.text ∧
      sectionNamed f v.ehdr (str ".data") = some v.data ∧
      sectionTyped f v.ehdr shtSymtab.toNat = some v.symtab := by
  obtain ⟨null, hnull⟩ := h.null
  have hheaders := headers_of_recovered h hnull.header
  refine ⟨?_, ?_, ?_⟩
  · rw [sectionNamed, hheaders]
    simp only [Option.bind_some, List.find?, hnull.name, h.strtab.name, h.shstrtab.name,
      h.symtab.name, h.text.name]
    rfl
  · rw [sectionNamed, hheaders]
    simp only [Option.bind_some, List.find?, hnull.name, h.strtab.name, h.shstrtab.name,
      h.symtab.name, h.text.name, h.data.name]
    rfl
  · rw [sectionTyped, hheaders]
    simp only [Option.bind_some, List.find?, hnull.type, h.strtab.type, h.shstrtab.type,
      h.symtab.type]
    rfl

section

variable {e : ELF32} {o : Object}

/-- The parts of a file are no longer than the file. -/
theorem lengths_lt (h : e.Shaped) (hlen : e.file.length < 2 ^ 32) :
    e.strtab.data.length < 2 ^ 32 ∧ e.secData.data.length < 2 ^ 32 := by
  rw [ELF32.length_file h] at hlen
  simp only [ELF32.tableOffset, ELF32.symtabOffset, ELF32.shstrtabOffset, ELF32.strtabOffset,
    ELF32.dataOffset] at hlen
  omega

/-- The entry of an item, as a reader sees it, has the item's name. -/
theorem readSymbol_of_tables {known : List Str} {items : List Item} (hshaped : e.Shaped)
    (h : e.Tables known items) (hlen : e.file.length < 2 ^ 32) {k : ℕ} (hk : k < items.length) :
    readSymbol e.file e.view.ehdr e.view.symtab (k + 1) = some (items[k].symbol (items.take k)) := by
  obtain ⟨hstrtab, hdata⟩ := lengths_lt hshaped hlen
  have hread := hshaped.reads_back hlen
  have hbound : k + 1 < e.symtab.data.length := by
    rw [h.symtab, length_symtabOf]
    omega
  have hentry : e.symtab.data[k + 1] = items[k].entry (items.take k) := by
    have hget : e.symtab.data[k + 1]? = some (items[k].entry (items.take k)) := by
      rw [h.symtab, symtabOf, List.getElem?_cons_succ, getElem?_entriesFrom,
        List.getElem?_eq_getElem hk]
      rfl
    exact (List.getElem?_eq_some_iff.mp hget).2
  have hname : symbolName e.file e.view.ehdr e.view.symtab (items[k].entry (items.take k)).view =
      some (cString items[k].name) := by
    rw [symbolName, hread.symtabLink, Option.bind_some, hread.strtab.bytes, Option.bind_some]
    exact h.readCString_eq (List.getElem?_eq_getElem hk) hstrtab
  have hvalue : (items[k].entry (items.take k)).stValue.toNat =
      if items[k].value = none then 0 else ((items.take k).flatMap Item.bytes).length := by
    have hle : ((items.take k).flatMap Item.bytes).length ≤ e.secData.data.length := by
      rw [h.data]
      conv_rhs => rw [← List.take_append_drop k items, List.flatMap_append, List.length_append]
      omega
    rw [Item.entry]
    split_ifs
    · rfl
    · rw [BitVec.toNat_ofNat, Nat.mod_eq_of_lt (by omega)]
  rw [readSymbol, hshaped.symbolAt_view hlen hbound, Option.bind_some, hentry, hname, Option.map_some,
    Item.symbol, ← hvalue]
  rfl

/-- The symbols that a reader finds. -/
theorem readSymbols_of_tables {known : List Str} {items : List Item} (hshaped : e.Shaped)
    (h : e.Tables known items) (hlen : e.file.length < 2 ^ 32) :
    readSymbols e.file e.view.ehdr e.view.symtab = some (symbolsOf items) := by
  have hentsize : e.view.symtab.entsize = sizeofSym :=
    congrArg (fun hd => hd.shEntsize.toNat) hshaped.symtab
  have hsize : e.view.symtab.size = sizeofSym * (items.length + 1) := by
    have hregion := (ELF32.regions_view hshaped hlen).2.2.2.2
    rw [ELF32.length_symtabBytes, h.symtab, length_symtabOf] at hregion
    exact congrArg Region.length hregion
  have hcount : e.view.symtab.size / e.view.symtab.entsize - 1 = (symbolsOf items).length := by
    rw [hentsize, hsize, Nat.mul_div_cancel_left _ (by decide), length_symbolsOf]
    omega
  rw [readSymbols, hcount]
  refine mapM_range_eq (m := Option) fun k hk => ?_
  rw [length_symbolsOf] at hk
  simp only [readSymbol_of_tables hshaped h hlen hk, symbolsOf, List.getElem_mapIdx, Option.pure_def]

/-- What a linker reads in a file, from the tables. -/
theorem readContents_of_tables {known : List Str} {items : List Item} (hshaped : e.Shaped)
    (h : e.Tables known items) (hlen : e.file.length < 2 ^ 32) :
    readContents e.file = some ⟨e.secText.bytes .le, items.flatMap Item.bytes, symbolsOf items⟩ := by
  have hread := hshaped.reads_back hlen
  obtain ⟨htext, hdata, hsymtab⟩ := sections_of_recovered hread
  have hsymbols := readSymbols_of_tables hshaped h hlen
  simp only [readContents, hread.ehdr, htext, hdata, hsymtab, hread.text.bytes, hread.data.bytes, hsymbols,
    Option.bind_eq_bind, Option.bind_some, h.data]

/-- **The file says what the object is.** -/
theorem Represents.readContents (h : Represents e o) (hlen : e.file.length < 2 ^ 32) :
    readContents e.file = some o.contents := by
  obtain ⟨known, htables⟩ := h.tables
  have hwords : e.secText.bytes .le = o.text.flatMap fun w => leBytes 4 w.toNat := by
    rw [Text.bytes, h.text]
    simp only [write_le]
  rw [readContents_of_tables h.shaped htables hlen, hwords]
  rfl

end

/-! ## Answers -/

/-- What an object answers is what its users expect. -/
structure Answers (e : ELF32) (o : Object) : Prop where
  labelExists : ∀ l, e.labelExists l = (o.labels l).isSome
  resolveLabel : ∀ l, (e.resolveLabel l).2 =
    match o.labels l with
    | some addr => (0, addr)
    | none => (-1, hasher l)
  symbolExists : ∀ y, e.symbolExists y = (o.symbols y).isSome
  symbolResolved : ∀ y, e.symbolResolved y = (o.symbols y).any Sym.resolved
  resolveSymbol : ∀ y, e.resolveSymbol y = (o.symbols y).getD ⟨0, 0, 0, false, false⟩
  getNextInsnNumber : e.getNextInsnNumber (str ".text") = BitVec.ofNat 64 o.text.length
  /-- A linker reads the contents in the file. -/
  file : e.file.length < 2 ^ 32 → readContents e.file = some o.contents

/-- **The object is what its users think it is**, after any calls: nothing of how names, offsets and
sections are kept can be seen from outside. -/
theorem answers (ops : List Op) : Answers (build ops) (Object.after ops) := by
  have h := Represents.build ops
  constructor
  case labelExists => exact h.labelExists
  case resolveLabel =>
    intro l
    rw [← h.labels]
    cases hl : (build ops).resolvedLabels.lookup l with
    | some addr => rw [(build ops).resolveLabel_of_some hl]
    | none => rw [(build ops).resolveLabel_of_none hl]
  case symbolExists =>
    intro y
    rw [← h.symbols, Bool.eq_iff_iff, ELF32.symbolExists, decide_eq_true_eq, AList.lookup_isSome]
  case symbolResolved =>
    intro y
    rw [← h.symbols, ELF32.symbolResolved]
    cases (build ops).symbols.lookup y <;> rfl
  case resolveSymbol =>
    intro y
    rw [← h.symbols]
    rfl
  case getNextInsnNumber =>
    rw [ELF32.getNextInsnNumber, if_pos rfl, Text.nextIndex, h.text]
  case file => exact h.readContents

/-! ## Two sequences of calls -/

theorem names_symbolsOf (items : List Item) :
    (symbolsOf items).map Gabi.Symbol.name = (items.map Item.name).map cString := by
  apply List.ext_getElem
  · simp
  · intro k hk hk'
    simp [symbolsOf, Item.symbol]

/-- The string table depends on the names up to their first NULs only. -/
theorem body_eq (names : List Str) :
    StringTable.body names = (names.map cString).flatMap fun name => name ++ [0] := by
  rw [StringTable.body, List.flatMap_map]

/-- The entry of an item depends on its symbol and on the names in front. -/
theorem entry_eq (before : List Item) (item : Item) :
    item.entry before =
      { stName := BitVec.ofNat 32 ((StringTable.body (before.map Item.name)).length + 1)
        stValue := BitVec.ofNat 32 (item.symbol before).value
        stShndx := BitVec.ofNat 16 (item.symbol before).shndx } := by
  rw [Item.entry, Item.symbol, BitVec.ofNat_toNat, BitVec.setWidth_eq]
  split_ifs <;> rfl

/-- The symbols determine the tables. -/
theorem tables_of_symbols {items items' : List Item} (h : symbolsOf items = symbolsOf items') :
    StringTable.tableBytes (items.map Item.name) = StringTable.tableBytes (items'.map Item.name) ∧
      symtabOf items = symtabOf items' := by
  have hlen : items.length = items'.length := by
    have hlen := congrArg List.length h
    rwa [length_symbolsOf, length_symbolsOf] at hlen
  have hnames : (items.map Item.name).map cString = (items'.map Item.name).map cString := by
    rw [← names_symbolsOf, ← names_symbolsOf, h]
  constructor
  · have hnil : items.map Item.name = [] ↔ items'.map Item.name = [] := by
      rw [List.map_eq_nil_iff, List.map_eq_nil_iff, ← List.length_eq_zero_iff, hlen,
        List.length_eq_zero_iff]
    simp only [StringTable.tableBytes, body_eq, hnames, hnil]
  · rw [symtabOf, symtabOf]
    congr 1
    apply List.ext_getElem?
    intro k
    rw [getElem?_entriesFrom, getElem?_entriesFrom, List.nil_append, List.nil_append]
    have hsymbol := congrArg (fun symbols => symbols[k]?) h
    simp only [symbolsOf, List.getElem?_mapIdx] at hsymbol
    have htake : ((items.take k).map Item.name).map cString = ((items'.take k).map Item.name).map cString := by
      rw [List.map_take, List.map_take, List.map_take, List.map_take, hnames]
    have hbody : StringTable.body ((items.take k).map Item.name) =
        StringTable.body ((items'.take k).map Item.name) := by
      rw [body_eq, body_eq, htake]
    cases hitem : items[k]? with
    | none =>
        rw [hitem, Option.map_none] at hsymbol
        rw [Option.map_none, Option.map_eq_none_iff.mp hsymbol.symm]
        rfl
    | some item =>
        rw [hitem, Option.map_some] at hsymbol
        obtain ⟨item', hitem', hsame⟩ := Option.map_eq_some_iff.mp hsymbol.symm
        rw [hitem', Option.map_some, Option.map_some, entry_eq, entry_eq, hsame, hbody]

/-- The bytes determine the words. -/
theorem words_inj {ws ws' : List Word}
    (h : (ws.flatMap fun w => leBytes 4 w.toNat) = ws'.flatMap fun w => leBytes 4 w.toNat) : ws = ws' := by
  have hwidth : ∀ w : Word, (leBytes 4 w.toNat).length = 4 := fun w => length_leBytes 4 w.toNat
  have hlen : ws.length = ws'.length := by
    have hlen := congrArg List.length h
    simp only [List.length_flatMap, hwidth, List.map_const', List.sum_replicate_nat] at hlen
    omega
  refine flatMap_inj hwidth ?_ hlen h
  intro w w' hw
  have hlt : ∀ w : Word, w.toNat < 256 ^ 4 := fun w => w.isLt
  have hnat := congrArg ofLE hw
  simp only [ofLE_leBytes_of_lt (hlt _)] at hnat
  exact BitVec.eq_of_toNat_eq hnat

/-- Objects with the same contents have one file. -/
theorem file_eq_of_contents {e e' : ELF32} {o o' : Object} (h : Represents e o) (h' : Represents e' o')
    (hcontents : o.contents = o'.contents) : e.file = e'.file := by
  obtain ⟨known, htables⟩ := h.tables
  obtain ⟨known', htables'⟩ := h'.tables
  obtain ⟨htext, hdata, hsymbols⟩ := Contents.mk.inj hcontents
  obtain ⟨hstrtab, hsymtab⟩ := tables_of_symbols hsymbols
  have hwords : e.secText.data = e'.secText.data := by
    rw [h.text, h'.text]
    exact words_inj htext
  have hsymtabs : e.symtab.data = e'.symtab.data := by rw [htables.symtab, htables'.symtab, hsymtab]
  refine (ELF32.file_eq_file_iff h.shaped h'.shaped ?_ ?_ ?_ ?_).mpr ⟨hwords, hsymtabs⟩
  · rw [htables.data, htables'.data]
    exact hdata
  · rw [show e.strtab.data = _ from htables.strtab, show e'.strtab.data = _ from htables'.strtab, hstrtab]
  · rw [hwords]
  · rw [hsymtabs]

/-- **What a file says**: two sequences of calls lead to one file iff they lead to the same contents. -/
theorem file_eq_iff (ops ops' : List Op) (hlen : (build ops).file.length < 2 ^ 32)
    (hlen' : (build ops').file.length < 2 ^ 32) :
    (build ops).file = (build ops').file ↔
      (Object.after ops).contents = (Object.after ops').contents := by
  have h := Represents.build ops
  have h' := Represents.build ops'
  constructor
  · intro hfile
    have hread := h.readContents hlen
    rw [hfile, h'.readContents hlen'] at hread
    exact (Option.some.inj hread).symm
  · exact file_eq_of_contents h h'

/-- A label at two places. -/
theorem file_eq_iff_of_labels :
    (build [.addToText 0x13, .initLabel (str "a") false (str ".text")]).file =
        (build [.initLabel (str "a") true (str ".text"), .addToText 0x13]).file ↔
      (Object.after [.addToText 0x13, .initLabel (str "a") false (str ".text")]).contents =
        (Object.after [.initLabel (str "a") true (str ".text"), .addToText 0x13]).contents := by
  refine file_eq_iff _ _ ?_ ?_
  · rw [ELF32.length_file (ELF32.shaped_of_reachable ⟨_, rfl⟩)]
    decide
  · rw [ELF32.length_file (ELF32.shaped_of_reachable ⟨_, rfl⟩)]
    decide

/-! ## Code and data -/

/-- The call can change code. -/
def Op.isCode : Op → Bool
  | .initLabel .. => true
  | .updateLabelVisibility .. => true
  | .addToText .. => true
  | .addToUnresolvedInsns .. => true
  | .resolveUnresolvedInstructions => true
  | _ => false

/-- The call can name something. -/
def Op.isNaming : Op → Bool
  | .initLabel .. => true
  | .updateLabelVisibility .. => true
  | .addProgramData .. => true
  | _ => false

namespace Object

/-- What code depends on. -/
def code (o : Object) : List Word × (Str → Option Word) × (Word → Word) × List UnresolvedInst32 :=
  (o.text, o.labels, o.targets, o.pending)

/-- What names depend on. -/
def named (o : Object) : List Item × (Str → Bool) := (o.items, fun l => (o.labels l).isSome)

theorem code_define {o o' : Object} (h : o.code = o'.code) (label sectionName : Str) :
    (o.define label sectionName).code = (o'.define label sectionName).code := by
  simp only [code, Prod.mk.injEq] at h
  obtain ⟨htext, hlabels, htargets, hpending⟩ := h
  simp only [define, hlabels, last, htext, htargets]
  split_ifs <;> simp [code, htext, hlabels, htargets, hpending]

theorem named_define {o o' : Object} (h : o.named = o'.named) (label sectionName : Str) :
    (o.define label sectionName).named = (o'.define label sectionName).named := by
  simp only [named, Prod.mk.injEq] at h
  obtain ⟨hitems, hlabels⟩ := h
  have hlabel := congrFun hlabels label
  simp only [define, hlabel]
  split_ifs
  · exact Prod.ext hitems hlabels
  · refine Prod.ext (by simp [named, hitems]) ?_
    funext l
    have hl := congrFun hlabels l
    by_cases hne : l = label
    · subst hne
      simp [named]
    · simpa [named, Function.update_of_ne hne] using hl

/-- The calls that can change code make it. -/
theorem code_after (ops : List Op) : (after ops).code = (after (ops.filter Op.isCode)).code := by
  refine Runs.part_foldl code Op.isCode ?_ ?_ ops rfl
  · intro o op hop
    cases op <;> first | rfl | cases hop
  · intro o o' op hop h
    cases op with
    | initLabel label isGlobal sectionName => exact code_define h label sectionName
    | updateLabelVisibility label isGlobal => exact code_define h label (str ".text")
    | addToText instr =>
        simp only [code, Prod.mk.injEq] at h
        simp [code, apply, h]
    | addToUnresolvedInsns insnNumber insnType hash pcInsnNumber =>
        simp only [code, Prod.mk.injEq] at h
        simp [code, apply, h]
    | resolveUnresolvedInstructions =>
        simp only [code, Prod.mk.injEq] at h
        simp [code, apply, h]
    | _ => cases hop

/-- The calls that can name something give the names. -/
theorem named_after (ops : List Op) : (after ops).named = (after (ops.filter Op.isNaming)).named := by
  refine Runs.part_foldl named Op.isNaming ?_ ?_ ops rfl
  · intro o op hop
    cases op <;> first | rfl | cases hop
  · intro o o' op hop h
    cases op with
    | initLabel label isGlobal sectionName => exact named_define h label sectionName
    | updateLabelVisibility label isGlobal => exact named_define h label (str ".text")
    | addProgramData varName value sectionName =>
        simp only [named, Prod.mk.injEq] at h
        simp [named, apply, h]
    | _ => cases hop

end Object

/-- **Code and data can be added in any order relative to each other**, and lookups and symbols anywhere:
the calls that can change code, in their order, and those that name something, in theirs, determine the
file. -/
theorem file_eq_of_filter (ops ops' : List Op) (hcode : ops.filter Op.isCode = ops'.filter Op.isCode)
    (hnaming : ops.filter Op.isNaming = ops'.filter Op.isNaming) :
    (build ops).file = (build ops').file := by
  refine file_eq_of_contents (Represents.build ops) (Represents.build ops') ?_
  have htext := congrArg Prod.fst ((Object.code_after ops).trans (hcode ▸ (Object.code_after ops').symm))
  have hitems :=
    congrArg Prod.fst ((Object.named_after ops).trans (hnaming ▸ (Object.named_after ops').symm))
  simp only [Object.code, Object.named] at htext hitems
  rw [Object.contents, Object.contents, htext, hitems]

/-- Data in front of a word, or behind it. -/
theorem file_eq_of_data_moved :
    (build [.addProgramData (str "m") (str "hi") (str ".data"), .addToText 0x13,
        .initLabel (str "a") false (str ".text")]).file =
      (build [.addToText 0x13, .resolveLabel (str "a"),
        .addProgramData (str "m") (str "hi") (str ".data"),
        .initLabel (str "a") false (str ".text")]).file :=
  file_eq_of_filter _ _ rfl rfl

end RiscvAssembler
