import RiscvAssembler.Denotation

/-!
# The tables, after any sequence of calls

An `Item` is what one call asks the tables to hold: a name in a section, and a value if the name is
that of data. `itemsOf ops` are the items of a sequence of calls, said without any table: a label is
an item when it is first named, data every time.

* `tables_build`: the string table, the symbol table and `.data` are functions of the items of the
  calls (`Tables`).
* `resolves`: names read back through `st_name`, values through `st_value`, then and later.
* `oneEntryPerName_iff`: when no name has two entries.
* `localsFirst_iff`, `bindsRight_iff`: every entry has the local binding, so that the symbol table is
  right about bindings only if there is nothing to be global.
-/

namespace RiscvAssembler

open Runs ParserState Bytes Gabi

/-! ## Items -/

/-- What a call asks the tables to hold. -/
structure Item where
  name : Str
  sectionName : Str
  /-- The bytes of data; a label has none. -/
  value : Option Str
  deriving DecidableEq, Repr

/-- The bytes that an item has in `.data`. -/
def Item.bytes (item : Item) : Str := item.value.getD []

namespace Op

/-- The label that a call asks to record. -/
def label : Op → Option Str
  | .initLabel label _ _ => some label
  | .updateLabelVisibility label _ => some label
  | _ => none

/-- The name that a call gives to data. -/
def datum : Op → Option Str
  | .addProgramData varName _ _ => some varName
  | _ => none

/-- The name of a call. -/
def name (op : Op) : Option Str := op.label <|> op.datum

/-- The item of a call, when some labels are known. -/
def item (known : List Str) : Op → Option Item
  | .initLabel label _ sectionName =>
    if label ∈ known then none else some ⟨label, sectionName, none⟩
  | .updateLabelVisibility label _ =>
    if label ∈ known then none else some ⟨label, str ".text", none⟩
  | .addProgramData varName value section_ => some ⟨varName, section_, some value⟩
  | _ => none

/-- The labels known after a call. -/
def knownAfter (known : List Str) (op : Op) : List Str := known ++ op.label.toList

/-- The item of a call has its name. -/
theorem name_of_item {op : Op} {known : List Str} {item : Item} (h : op.item known = some item) :
    op.name = some item.name := by
  cases op with
  | initLabel label isGlobal sectionName =>
      simp only [Op.item, Option.ite_none_left_eq_some, Option.some.injEq] at h
      rw [← h.2]
      rfl
  | updateLabelVisibility label isGlobal =>
      simp only [Op.item, Option.ite_none_left_eq_some, Option.some.injEq] at h
      rw [← h.2]
      rfl
  | addProgramData varName value section_ => cases h; rfl
  | _ => cases h

end Op

/-- The items of a sequence of calls, when some labels are known. -/
def itemsFrom (known : List Str) : List Op → List Item
  | [] => []
  | op :: ops => (op.item known).toList ++ itemsFrom (op.knownAfter known) ops

/-- The items of a sequence of calls. -/
def itemsOf (ops : List Op) : List Item := itemsFrom [] ops

/-- The entry of an item behind those of other items. -/
def Item.entry (before : List Item) (item : Item) : Elf32Sym :=
  { stName := BitVec.ofNat 32 ((StringTable.body (before.map Item.name)).length + 1)
    stValue := if item.value = none then 0 else BitVec.ofNat 32 (before.flatMap Item.bytes).length
    stShndx := shndx item.sectionName }

theorem Item.stInfo_entry (before : List Item) (item : Item) : (item.entry before).stInfo = 0 := rfl

/-- The entries of items behind those of other items. -/
def entriesFrom (before : List Item) : List Item → List Elf32Sym
  | [] => []
  | item :: items => item.entry before :: entriesFrom (before ++ [item]) items

/-- The symbol table of items: the null entry and theirs. -/
def symtabOf (items : List Item) : List Elf32Sym := {} :: entriesFrom [] items

theorem entriesFrom_append (before items items' : List Item) :
    entriesFrom before (items ++ items') =
      entriesFrom before items ++ entriesFrom (before ++ items) items' := by
  induction items generalizing before with
  | nil => simp [entriesFrom]
  | cons item items ih => simp [entriesFrom, ih]

theorem symtabOf_append (items items' : List Item) :
    symtabOf (items ++ items') = symtabOf items ++ entriesFrom items items' := by
  simp [symtabOf, entriesFrom_append]

@[simp] theorem length_entriesFrom (before items : List Item) :
    (entriesFrom before items).length = items.length := by
  induction items generalizing before with
  | nil => rfl
  | cons item items ih => simp [entriesFrom, ih]

@[simp] theorem length_symtabOf (items : List Item) : (symtabOf items).length = items.length + 1 := by
  simp [symtabOf]

/-- The entry of an item, by its place. -/
theorem getElem?_entriesFrom (before items : List Item) (k : ℕ) :
    (entriesFrom before items)[k]? = items[k]?.map fun item => item.entry (before ++ items.take k) := by
  induction items generalizing before k with
  | nil => rfl
  | cons item items ih =>
      cases k with
      | zero => simp [entriesFrom]
      | succ k => simp [entriesFrom, ih]

/-! ## The tables hold the items -/

namespace ELF32

variable {e : ELF32} {known : List Str} {items : List Item}

/-- The labels with an address are the known ones, and the tables are those of the items. -/
structure Tables (e : ELF32) (known : List Str) (items : List Item) : Prop where
  known : ∀ l, e.labelExists l = true ↔ l ∈ known
  sectionToIdx : ∀ name, ((e.sectionToIdx.lookup name).getD 0).setWidth 16 = shndx name
  strtab : e.strtab.Holds (items.map Item.name)
  data : e.secData.data = items.flatMap Item.bytes
  symtab : e.symtab.data = symtabOf items

theorem tables_init : Tables init [] [] :=
  ⟨by simp [labelExists, show init.resolvedLabels = ∅ from rfl], fun _ => rfl, rfl, rfl, rfl⟩

/-- A call that leaves labels and tables alone. -/
theorem Tables.of_kept (h : Tables e known items) {e' : ELF32}
    (hlabels : e'.resolvedLabels = e.resolvedLabels) (hidx : e'.sectionToIdx = e.sectionToIdx)
    (hstrtab : e'.strtab = e.strtab) (hdata : e'.secData = e.secData) (hsymtab : e'.symtab = e.symtab) :
    Tables e' known items :=
  ⟨by simpa [labelExists, hlabels] using h.known, hidx ▸ h.sectionToIdx, hstrtab ▸ h.strtab,
    hdata ▸ h.data, hsymtab ▸ h.symtab⟩

/-- A label that is not known becomes an item. -/
theorem Tables.initLabel (h : Tables e known items) (label : Str) (isGlobal : Bool)
    (sectionName : Str) :
    Tables (e.initLabel label isGlobal sectionName) (known ++ [label])
      (items ++
        (if label ∈ known then none else some ⟨label, sectionName, none⟩ : Option Item).toList) := by
  by_cases hk : label ∈ known
  · -- the label exists, and the call does nothing
    rw [e.initLabel_of_exists _ _ ((h.known label).mpr hk), if_pos hk, Option.toList_none,
      List.append_nil]
    refine ⟨?_, h.sectionToIdx, h.strtab, h.data, h.symtab⟩
    intro l
    rw [h.known, List.mem_append, List.mem_singleton]
    exact ⟨Or.inl, fun hor => hor.elim id fun hl => hl ▸ hk⟩
  · have hnew : e.labelExists label = false := by
      rw [← Bool.not_eq_true, h.known]
      exact hk
    obtain ⟨hsym, hstr, hdata, hidx⟩ := e.tables_initLabel hnew isGlobal sectionName
    rw [if_neg hk, Option.toList_some]
    constructor
    case known =>
      intro l
      rw [labelExists, (e.initLabel_of_new sectionName isGlobal hnew).1, decide_eq_true_eq,
        AList.mem_insert, List.mem_append, List.mem_singleton, ← h.known, labelExists,
        decide_eq_true_eq, or_comm]
    case sectionToIdx => rw [hidx]; exact h.sectionToIdx
    case strtab =>
      rw [StringTable.Holds, hstr, List.map_append]
      exact StringTable.holds_addString h.strtab label
    case data => rw [hdata, h.data]; simp [Item.bytes]
    case symtab =>
      -- `ELF32_ST_BIND` shifts either binding out
      have hinfo : (elf32StBind (if isGlobal then stbGlobal else stbLocal)).setWidth 8 = (0 : Byte) := by
        cases isGlobal <;> rfl
      rw [hsym, symtabOf_append, h.symtab, labelSym_of_shndx e (h.sectionToIdx sectionName), hinfo,
        StringTable.addString_offset h.strtab]
      rfl

/-- Data always becomes an item. -/
theorem Tables.addProgramData (h : Tables e known items) (varName value section_ : Str) :
    Tables (e.addProgramData varName value section_) known
      (items ++ [⟨varName, section_, some value⟩]) := by
  obtain ⟨-, -, -, hlabels, -⟩ := e.addProgramData_kept varName value section_
  have hoffset := StringTable.addString_offset h.strtab varName
  have hshndx := h.sectionToIdx section_
  obtain ⟨hsym, hstr, hdata, hidx⟩ :
      (e.addProgramData varName value section_).symtab.data =
          e.symtab.data ++ [Item.entry items ⟨varName, section_, some value⟩] ∧
        (e.addProgramData varName value section_).strtab.data = (e.strtab.addString varName).1.data ∧
        (e.addProgramData varName value section_).secData.data = e.secData.data ++ value ∧
        ∀ name, ((e.addProgramData varName value section_).sectionToIdx.lookup name).getD 0 =
          (e.sectionToIdx.lookup name).getD 0 := by
    simp only [ELF32.addProgramData, storeRegularString, sectionToIdxAt, Symtab.push, Data.push,
      Item.entry, hoffset, ← h.data, reduceCtorEq, if_false]
    split
    · rename_i idx hlookup
      rw [hlookup] at hshndx
      exact ⟨by rw [← hshndx]; rfl, rfl, rfl, fun _ => rfl⟩
    · -- `operator[]` enters the section with the index zero
      rename_i hlookup
      rw [hlookup] at hshndx
      refine ⟨by rw [← hshndx]; rfl, rfl, rfl, ?_⟩
      intro name
      by_cases hname : name = section_
      · subst hname
        simp [hlookup]
      · simp [AList.lookup_insert_ne hname]
  constructor
  case known => simpa [labelExists, hlabels] using h.known
  case sectionToIdx =>
    intro name
    rw [hidx, h.sectionToIdx]
  case strtab =>
    rw [StringTable.Holds, hstr, List.map_append]
    exact StringTable.holds_addString h.strtab varName
  case data => rw [hdata, h.data]; simp [Item.bytes]
  case symtab => rw [hsym, symtabOf_append, h.symtab]; rfl

/-- **Every call keeps the tables**, and appends its item. -/
theorem Tables.apply (h : Tables e known items) (op : Op) :
    Tables (op.apply e) (op.knownAfter known) (items ++ (op.item known).toList) := by
  have hkept : ∀ {e' : ELF32}, Tables e' known items → Tables e' (known ++ []) (items ++ []) := by
    intro e' he'
    rwa [List.append_nil, List.append_nil]
  cases op with
  | initLabel label isGlobal sectionName => exact h.initLabel label isGlobal sectionName
  | updateLabelVisibility label isGlobal =>
      have hl := h.initLabel label isGlobal (str ".text")
      rwa [← e.updateLabelVisibility_eq] at hl
  | addProgramData varName value section_ =>
      have hd := h.addProgramData varName value section_
      rwa [← List.append_nil known] at hd
  | resolveLabel label =>
      refine hkept ?_
      change Tables (e.resolveLabel label).1 known items
      unfold ELF32.resolveLabel
      split
      · exact h
      · exact h.of_kept rfl rfl rfl rfl rfl
  | addSymbol symText sectionIdx offsetIdx symtabIdx isResolved isLabel =>
      exact hkept (h.of_kept rfl rfl rfl rfl rfl)
  | addToText instr => exact hkept (h.of_kept rfl rfl rfl rfl rfl)
  | addToUnresolvedInsns insnNumber insnType hash pcInsnNumber =>
      exact hkept (h.of_kept rfl rfl rfl rfl rfl)
  | resolveUnresolvedInstructions =>
      obtain ⟨hsymtab, hstrtab, hdata⟩ := e.tables_resolveUnresolvedInstructions
      refine hkept (h.of_kept ?_ ?_ hstrtab hdata hsymtab)
      · exact project_resolveUnresolvedInstructions (fun e => e.resolvedLabels) (fun _ _ _ => rfl) e
      · exact project_resolveUnresolvedInstructions (fun e => e.sectionToIdx) (fun _ _ _ => rfl) e

/-- A sequence of calls keeps the tables, and appends its items. -/
theorem Tables.foldl (h : Tables e known items) (ops : List Op) :
    Tables (ops.foldl Op.apply e) (ops.foldl Op.knownAfter known) (items ++ itemsFrom known ops) := by
  induction ops generalizing e known items with
  | nil =>
      rw [itemsFrom, List.append_nil]
      exact h
  | cons op ops ih =>
      rw [itemsFrom, ← List.append_assoc]
      exact ih (h.apply op)

/-- **The tables are those of the items of the calls.** -/
theorem tables_build (ops : List Op) :
    Tables (build ops) (ops.foldl Op.knownAfter []) (itemsOf ops) :=
  tables_init.foldl ops

end ELF32

/-- A call without a name adds no item. -/
theorem itemsFrom_of_unnamed (known : List Str) {op : Op} (h : op.name = none) (ops : List Op) :
    itemsFrom known (op :: ops) = itemsFrom known ops := by
  obtain ⟨hlabel, hitem⟩ : op.label = none ∧ op.item known = none := by
    cases op <;> first | exact ⟨rfl, rfl⟩ | cases h
  simp [itemsFrom, Op.knownAfter, hlabel, hitem]

/-- Calls have no items iff none of them has a name. -/
theorem itemsOf_eq_nil_iff (ops : List Op) : itemsOf ops = [] ↔ ∀ op ∈ ops, op.name = none := by
  induction ops with
  | nil => exact iff_of_true rfl (by simp)
  | cons op ops ih =>
      rw [List.forall_mem_cons]
      by_cases hname : op.name = none
      · rw [and_iff_right hname, ← ih, itemsOf, itemsFrom_of_unnamed _ hname]
        rfl
      · -- the first call with a name is the first item
        refine iff_of_false ?_ fun h => hname h.1
        have hitem : op.item [] ≠ none := by
          cases op <;> simp_all [Op.item, Op.name, Op.label, Op.datum]
        obtain ⟨item, hitem⟩ := Option.ne_none_iff_exists'.mp hitem
        rw [itemsOf, itemsFrom, hitem]
        simp

/-! ## Entries and their calls -/

theorem itemsFrom_append (known : List Str) (ops ops' : List Op) :
    itemsFrom known (ops ++ ops') =
      itemsFrom known ops ++ itemsFrom (ops.foldl Op.knownAfter known) ops' := by
  induction ops generalizing known with
  | nil => rfl
  | cons op ops ih => simp [itemsFrom, ih]

/-- In a sequence of calls, `op` appends entry `k` of the symbol table, and that is `sym`. -/
def Added (ops : List Op) (k : ℕ) (op : Op) (sym : Elf32Sym) : Prop :=
  ∃ pre post, ops = pre ++ op :: post ∧ (build pre).symtab.data.length = k ∧
    (op.apply (build pre)).symtab.data = (build pre).symtab.data ++ [sym]

/-- The entry that a call appends is that of its item. -/
theorem added_iff {ops : List Op} {k : ℕ} {op : Op} {sym : Elf32Sym} :
    Added ops k op sym ↔ ∃ pre post item, ops = pre ++ op :: post ∧ k = (itemsOf pre).length + 1 ∧
      op.item (pre.foldl Op.knownAfter []) = some item ∧ sym = item.entry (itemsOf pre) := by
  refine exists_congr fun pre => exists_congr fun post => ?_
  have hpre := ELF32.tables_build pre
  rw [(hpre.apply op).symtab, hpre.symtab, symtabOf_append, List.append_cancel_left_eq,
    length_symtabOf]
  cases hitem : op.item (pre.foldl Op.knownAfter []) with
  | none => simp [entriesFrom]
  | some item => simp [entriesFrom, eq_comm]

/-- The item of an entry, by its place. -/
theorem Added.getElem? {ops : List Op} {k : ℕ} {op : Op} {sym : Elf32Sym} (h : Added ops k op sym) :
    ∃ j item, k = j + 1 ∧ (itemsOf ops)[j]? = some item ∧ op.name = some item.name ∧
      sym = item.entry ((itemsOf ops).take j) ∧
      ∀ varName value section_, op = .addProgramData varName value section_ →
        item.value = some value := by
  obtain ⟨pre, post, item, rfl, rfl, hitem, rfl⟩ := added_iff.mp h
  have hitems : itemsOf (pre ++ op :: post) = itemsOf pre ++ item ::
      itemsFrom (op.knownAfter (pre.foldl Op.knownAfter [])) post := by
    rw [itemsOf, itemsFrom_append, itemsFrom, hitem]
    rfl
  refine ⟨(itemsOf pre).length, item, rfl, by simp [hitems], Op.name_of_item hitem,
    by simp [hitems], ?_⟩
  rintro varName value section_ rfl
  cases hitem
  rfl

/-- Every item has its call. -/
theorem exists_added {ops : List Op} {j : ℕ} {item : Item} (h : (itemsOf ops)[j]? = some item) :
    ∃ op, Added ops (j + 1) op (item.entry ((itemsOf ops).take j)) ∧ op.name = some item.name := by
  have hsplit : ∀ known j, (itemsFrom known ops)[j]? = some item → ∃ pre op post,
      ops = pre ++ op :: post ∧ (itemsFrom known pre).length = j ∧
        op.item (pre.foldl Op.knownAfter known) = some item := by
    clear h j
    induction ops with
    | nil => intro known j h; cases h
    | cons op ops ih =>
        intro known j h
        rw [itemsFrom] at h
        have hlater : ∀ j', (itemsFrom (op.knownAfter known) ops)[j']? = some item →
            (op.item known).toList.length + j' = j → ∃ pre op' post,
              op :: ops = pre ++ op' :: post ∧ (itemsFrom known pre).length = j ∧
                op'.item (pre.foldl Op.knownAfter known) = some item := by
          intro j' h' hj
          obtain ⟨pre, op', post, rfl, hlen, hop⟩ := ih _ j' h'
          exact ⟨op :: pre, op', post, rfl, by rw [itemsFrom, List.length_append, hlen, hj], hop⟩
        cases hitem : op.item known with
        | none =>
            rw [hitem] at h hlater
            exact hlater j h (Nat.zero_add j)
        | some item' =>
            rw [hitem] at h hlater
            cases j with
            | zero =>
                cases h
                exact ⟨[], op, ops, rfl, rfl, hitem⟩
            | succ j => exact hlater j h (Nat.add_comm 1 j)
  obtain ⟨pre, op, post, rfl, rfl, hop⟩ := hsplit [] j h
  refine ⟨op, added_iff.mpr ⟨pre, post, item, rfl, rfl, hop, ?_⟩, Op.name_of_item hop⟩
  rw [itemsOf, itemsFrom_append, List.take_left]
  rfl

/-! ## Names and data -/

/-- The name of a call is at the entry's `st_name`, and its value, if it has one, at `st_value`. -/
def ELF32.Resolves (e : ELF32) (op : Op) (sym : Elf32Sym) : Prop :=
  (∃ name, op.name = some name ∧ readCString e.strtab.data sym.stName.toNat = some name) ∧
    ∀ varName value section_, op = .addProgramData varName value section_ →
      slice e.secData.data sym.stValue.toNat value.length = some value

/-- The name of an item reads back, up to its first NUL. -/
theorem ELF32.Tables.readCString_eq {e : ELF32} {known : List Str} {items : List Item}
    (h : e.Tables known items) {j : ℕ} {item : Item} (hj : items[j]? = some item)
    (hlen : e.strtab.data.length < 2 ^ 32) :
    Bytes.readCString e.strtab.data (item.entry (items.take j)).stName.toNat =
      some (cString item.name) := by
  obtain ⟨hlt, hget⟩ := List.getElem?_eq_some_iff.mp hj
  have hsplit : items.map Item.name =
      (items.take j).map Item.name ++ item.name :: (items.drop (j + 1)).map Item.name := by
    conv_lhs => rw [← List.take_append_drop j items, List.drop_eq_getElem_cons hlt, hget]
    rw [List.map_append, List.map_cons]
  have hstr := h.strtab
  rw [StringTable.Holds, hsplit] at hstr
  have hoffset : (StringTable.body ((items.take j).map Item.name)).length + 1 < 2 ^ 32 := by
    rw [hstr] at hlen
    simp only [StringTable.tableBytes, StringTable.body, List.flatMap_append, List.length_cons,
      List.length_append] at hlen ⊢
    omega
  rw [hstr, Item.entry, BitVec.toNat_ofNat, Nat.mod_eq_of_lt hoffset,
    StringTable.readCString_tableBytes]

/-- The name of an item reads back. -/
theorem ELF32.Tables.readCString {e : ELF32} {known : List Str} {items : List Item}
    (h : e.Tables known items) {j : ℕ} {item : Item} (hj : items[j]? = some item)
    (hnul : (0 : Byte) ∉ item.name) (hlen : e.strtab.data.length < 2 ^ 32) :
    Bytes.readCString e.strtab.data (item.entry (items.take j)).stName.toNat = some item.name := by
  rw [h.readCString_eq hj hlen, cString_eq_self hnul]

/-- The value of an item is in `.data`. -/
theorem ELF32.Tables.slice {e : ELF32} {known : List Str} {items : List Item}
    (h : e.Tables known items) {j : ℕ} {item : Item} (hj : items[j]? = some item) {value : Str}
    (hvalue : item.value = some value) (hlen : e.secData.data.length < 2 ^ 32) :
    Bytes.slice e.secData.data (item.entry (items.take j)).stValue.toNat value.length = some value := by
  obtain ⟨hlt, hget⟩ := List.getElem?_eq_some_iff.mp hj
  have hsplit : e.secData.data = (items.take j).flatMap Item.bytes ++
      (value ++ (items.drop (j + 1)).flatMap Item.bytes) := by
    have hbytes : item.bytes = value := by rw [Item.bytes, hvalue, Option.getD_some]
    rw [h.data]
    conv_lhs => rw [← List.take_append_drop j items, List.drop_eq_getElem_cons hlt, hget]
    rw [List.flatMap_append, List.flatMap_cons, hbytes]
  have hoffset : ((items.take j).flatMap Item.bytes).length < 2 ^ 32 := by
    rw [hsplit, List.length_append] at hlen
    omega
  have hsome : item.value ≠ none := by simp [hvalue]
  rw [hsplit]
  refine slice_append ?_ rfl
  simp only [Item.entry, if_neg hsome]
  rw [BitVec.toNat_ofNat, Nat.mod_eq_of_lt hoffset]

/-- **Names and data resolve through the tables**: every entry but the null one was appended by a call,
and the entry of every call is still there and leads to the call's name and value. -/
theorem ELF32.resolves (ops : List Op)
    (hnul : ∀ op ∈ ops, ∀ name, op.name = some name → (0 : Byte) ∉ name)
    (hstrtab : (build ops).strtab.data.length < 2 ^ 32)
    (hdata : (build ops).secData.data.length < 2 ^ 32) :
    (∀ k sym, k ≠ 0 → (build ops).symtab.data[k]? = some sym → ∃ op, Added ops k op sym) ∧
      ∀ k op sym, Added ops k op sym →
        (build ops).symtab.data[k]? = some sym ∧ (build ops).Resolves op sym := by
  have htables := tables_build ops
  constructor
  · intro k sym hk hsym
    obtain ⟨j, rfl⟩ := Nat.exists_eq_succ_of_ne_zero hk
    rw [htables.symtab, symtabOf, List.getElem?_cons_succ, getElem?_entriesFrom] at hsym
    obtain ⟨item, hitem, rfl⟩ := Option.map_eq_some_iff.mp hsym
    obtain ⟨op, hop, -⟩ := exists_added hitem
    exact ⟨op, hop⟩
  · intro k op sym hadded
    obtain ⟨j, item, rfl, hitem, hname, rfl, hvalue⟩ := hadded.getElem?
    obtain ⟨pre, post, hops, -⟩ := hadded
    have hmem : op ∈ ops := by
      rw [hops]
      simp
    refine ⟨?_, ⟨item.name, hname, ?_⟩, ?_⟩
    · rw [htables.symtab, symtabOf, List.getElem?_cons_succ, getElem?_entriesFrom, hitem]
      rfl
    · exact htables.readCString hitem (hnul op hmem _ hname) hstrtab
    · intro varName value section_ hop
      exact htables.slice hitem (hvalue varName value section_ hop) hdata

/-- A name declared and then defined, and data. -/
def declared : List Op :=
  [.updateLabelVisibility (str "main") true, .initLabel (str "main") false (str ".text"),
    .addProgramData (str "m") (str "hi") (str ".data")]

theorem declared_resolves :
    (∀ k sym, k ≠ 0 → (build declared).symtab.data[k]? = some sym → ∃ op, Added declared k op sym) ∧
      ∀ k op sym, Added declared k op sym →
        (build declared).symtab.data[k]? = some sym ∧ (build declared).Resolves op sym := by
  refine ELF32.resolves declared ?_ (by decide) (by decide)
  intro op hop name hname
  simp only [declared, List.mem_cons, List.not_mem_nil, or_false] at hop
  rcases hop with rfl | rfl | rfl <;> cases hname <;> decide

/-! ## One entry for each name -/

/-- No two entries that calls append have the same name, as C strings. -/
def OneEntryPerName (ops : List Op) : Prop :=
  ∀ i j op op' sym sym', Added ops i op sym → Added ops j op' sym' → i ≠ j →
    op.name.map cString ≠ op'.name.map cString

/-- No name is given to data twice, none is given both to data and to a label, and different labels
are different C strings. -/
structure OneEach (ops : List Op) : Prop where
  data : ((ops.filterMap Op.datum).map cString).Nodup
  apart : ∀ l ∈ ops.filterMap Op.label, ∀ n ∈ ops.filterMap Op.datum, cString l ≠ cString n
  labels : ∀ l ∈ ops.filterMap Op.label, ∀ l' ∈ ops.filterMap Op.label, cString l = cString l' → l = l'

/-- No two entries have one name iff no two items have. -/
theorem oneEntryPerName_iff_nodup (ops : List Op) :
    OneEntryPerName ops ↔ ((itemsOf ops).map fun item => cString item.name).Nodup := by
  constructor
  · intro h
    rw [List.nodup_iff_getElem?_ne_getElem?]
    intro i j hij hj heq
    rw [List.length_map] at hj
    have hitem := List.getElem?_eq_getElem (hij.trans hj)
    have hitem' := List.getElem?_eq_getElem hj
    obtain ⟨op, hop, hname⟩ := exists_added hitem
    obtain ⟨op', hop', hname'⟩ := exists_added hitem'
    refine h _ _ op op' _ _ hop hop' (by omega) ?_
    rw [List.getElem?_map, List.getElem?_map, hitem, hitem'] at heq
    rw [hname, hname']
    exact heq
  · intro h i j op op' sym sym' hop hop' hij heq
    obtain ⟨i, item, rfl, hitem, hname, -⟩ := hop.getElem?
    obtain ⟨j, item', rfl, hitem', hname', -⟩ := hop'.getElem?
    obtain ⟨hlt, -⟩ := List.getElem?_eq_some_iff.mp hitem
    have hi : i < ((itemsOf ops).map fun item => cString item.name).length := by simpa using hlt
    refine hij (congrArg Nat.succ ((List.getElem?_inj hi h).mp ?_))
    rw [List.getElem?_map, List.getElem?_map, hitem, hitem']
    rw [hname, hname'] at heq
    exact heq

/-- The names of the items are those of the labels, each once, and those of the data. -/
theorem names_itemsFrom_perm (known : List Str) (ops : List Op) :
    ((itemsFrom known ops).map Item.name).Perm
      ((ops.filterMap Op.label).dedup.filter (· ∉ known) ++ ops.filterMap Op.datum) := by
  induction ops generalizing known with
  | nil => exact List.Perm.refl _
  | cons op ops ih =>
      have hrest := ih (op.knownAfter known)
      -- a call that names a label
      have hlabel : ∀ l sectionName, op.label = some l → op.datum = none →
          op.item known = (if l ∈ known then none else some ⟨l, sectionName, none⟩) →
          ((itemsFrom known (op :: ops)).map Item.name).Perm
            (((op :: ops).filterMap Op.label).dedup.filter (· ∉ known) ++
              (op :: ops).filterMap Op.datum) := by
        intro l sectionName hl hd hitem
        rw [Op.knownAfter, hl] at hrest
        rw [itemsFrom, hitem, List.filterMap_cons_some hl, List.filterMap_cons_none hd,
          Op.knownAfter, hl]
        by_cases hk : l ∈ known
        · rw [if_pos hk]
          refine hrest.trans (List.Perm.append_right _ ?_)
          refine (List.perm_ext_iff_of_nodup ((List.nodup_dedup _).filter _)
            ((List.nodup_dedup _).filter _)).mpr ?_
          intro x
          simp only [List.mem_filter, List.mem_dedup, List.mem_cons, Option.toList_some,
            List.mem_append, List.not_mem_nil, or_false, decide_eq_true_eq]
          constructor
          · rintro ⟨hx, hnot⟩
            exact ⟨Or.inr hx, fun hxk => hnot (Or.inl hxk)⟩
          · rintro ⟨hx, hnot⟩
            have hne : x ≠ l := fun h => hnot (h ▸ hk)
            exact ⟨hx.resolve_left hne, fun h => h.elim hnot hne⟩
        · rw [if_neg hk, Option.toList_some, List.singleton_append, List.map_cons]
          refine (hrest.cons l).trans ?_
          rw [← List.cons_append]
          refine List.Perm.append_right _ ?_
          have hfresh : l ∉ (ops.filterMap Op.label).dedup.filter (· ∉ known ++ [l]) := by
            simp
          refine (List.perm_ext_iff_of_nodup (List.nodup_cons.mpr ⟨hfresh, (List.nodup_dedup _).filter _⟩)
            ((List.nodup_dedup _).filter _)).mpr ?_
          intro x
          simp only [List.mem_filter, List.mem_dedup, List.mem_cons, List.mem_append,
            List.not_mem_nil, or_false, decide_eq_true_eq]
          by_cases hx : x = l
          · subst hx
            simp [hk]
          · simp [hx]
      cases op with
      | initLabel label isGlobal sectionName => exact hlabel label sectionName rfl rfl rfl
      | updateLabelVisibility label isGlobal => exact hlabel label (str ".text") rfl rfl rfl
      | addProgramData varName value section_ =>
          have hitems : itemsFrom known (.addProgramData varName value section_ :: ops) =
              ⟨varName, section_, some value⟩ :: itemsFrom known ops := by
            have hknown : Op.knownAfter known (.addProgramData varName value section_) = known :=
              List.append_nil known
            rw [itemsFrom, hknown]
            rfl
          rw [hitems, List.map_cons]
          exact ((ih known).cons varName).trans List.perm_middle.symm
      | _ =>
          rw [itemsFrom_of_unnamed known rfl]
          exact ih known

/-- **When no name has two entries.** -/
theorem oneEntryPerName_iff (ops : List Op) : OneEntryPerName ops ↔ OneEach ops := by
  have hperm := names_itemsFrom_perm [] ops
  simp only [List.not_mem_nil, not_false_eq_true, decide_true, List.filter_true] at hperm
  have hnames : ((itemsOf ops).map fun item => cString item.name).Perm
      ((ops.filterMap Op.label).dedup.map cString ++ (ops.filterMap Op.datum).map cString) := by
    rw [← List.map_append, ← Function.comp_def, ← List.map_map]
    exact hperm.map cString
  rw [oneEntryPerName_iff_nodup, hnames.nodup_iff, List.nodup_append,
    List.nodup_map_iff_inj_on (List.nodup_dedup _)]
  simp only [List.mem_dedup, List.forall_mem_map]
  constructor
  · rintro ⟨hlabels, hdata, hapart⟩
    exact ⟨hdata, hapart, hlabels⟩
  · rintro ⟨hdata, hapart, hlabels⟩
    exact ⟨hlabels, hdata, hapart⟩

/-- A name that is declared and then given to data has two entries. -/
theorem declared_data_twice : ¬ ∀ ops, OneEntryPerName ops := by
  intro h
  have hdup := (oneEntryPerName_iff_nodup _).mp
    (h [.updateLabelVisibility (str "m") true, .addProgramData (str "m") (str "hi") (str ".data")])
  revert hdup
  decide

/-! ## Bindings -/

/-- The binding in an entry's `st_info`. -/
def Elf32Sym.binding (sym : Elf32Sym) : BitVec 32 := elf32StBind (sym.stInfo.setWidth 32)

/-- In the serialized symbol table the entries in front of `sh_info` have the local binding, and the
others have not. -/
def ELF32.LocalsFirst (e : ELF32) : Prop :=
  ∀ k sym, (slice (e.symtab.bytes .le) (k * sizeofSym) sizeofSym).bind readSym = some sym →
    (k < e.symtab.header.shInfo.toNat → sym.info / 16 = stbLocal.toNat) ∧
      (e.symtab.header.shInfo.toNat ≤ k → sym.info / 16 ≠ stbLocal.toNat)

/-- An entry of the serialized symbol table, by its index. -/
theorem Symtab.readSym_bytes (t : Symtab) (k : ℕ) :
    (slice (t.bytes .le) (k * sizeofSym) sizeofSym).bind readSym = t.data[k]?.map Elf32Sym.view := by
  by_cases hk : k < t.data.length
  · have hslice := slice_flatMap (fun s => Elf32Sym.serialize s .le) (w := sizeofSym)
      (fun s => Elf32Sym.length_serialize s .le) [] t.data hk
    rw [List.nil_append, List.length_nil, zero_add] at hslice
    rw [Symtab.bytes, hslice, Option.bind_some, readSym_serialize, List.getElem?_eq_getElem hk]
    rfl
  · have hout : ¬ k * sizeofSym + sizeofSym ≤ (t.bytes .le).length := by
      rw [ELF32.length_symtabBytes, sizeofSym]
      omega
    rw [slice, if_neg hout, List.getElem?_eq_none (by omega)]
    rfl

/-- The local entries come first iff there is no entry but the null one. -/
theorem localsFirst_iff_itemsOf (ops : List Op) : (build ops).LocalsFirst ↔ itemsOf ops = [] := by
  have htables := ELF32.tables_build ops
  have hinfo : (build ops).symtab.header.shInfo.toNat = 1 := by
    rw [(ELF32.shaped_of_reachable ⟨ops, rfl⟩).symtab]
    rfl
  rw [ELF32.LocalsFirst]
  simp only [Symtab.readSym_bytes, hinfo, htables.symtab]
  constructor
  · intro h
    -- entry 1, if there is one, is local
    by_contra hne
    obtain ⟨item, items, hitems⟩ := List.exists_cons_of_ne_nil hne
    rw [hitems] at h
    refine (h 1 (item.entry []).view rfl).2 le_rfl ?_
    simp [Elf32Sym.view, Item.stInfo_entry, stbLocal]
  · intro h k sym hsym
    rw [h] at hsym
    cases k with
    | zero =>
        cases hsym
        exact ⟨fun _ => rfl, fun hle => absurd hle (by decide)⟩
    | succ k => cases hsym

/-- **When the local entries come first**: when no call has appended an entry. -/
theorem localsFirst_iff (ops : List Op) :
    (build ops).LocalsFirst ↔ ∀ op ∈ ops, op.name = none := by
  rw [localsFirst_iff_itemsOf, itemsOf_eq_nil_iff]

/-- The entry of a label that `.globl` declares is behind `sh_info`, and local. -/
theorem declared_not_localsFirst : ¬ ∀ e : ELF32, e.Reachable → e.LocalsFirst := by
  intro h
  have hnone := (localsFirst_iff_itemsOf _).mp (h (build declared) ⟨declared, rfl⟩)
  exact absurd hnone (by decide)

/-- Every entry of a reachable object has the local binding. -/
theorem ELF32.Reachable.binding_eq {e : ELF32} (h : e.Reachable) {sym : Elf32Sym}
    (hsym : sym ∈ e.symtab.data) : sym.binding = stbLocal := by
  obtain ⟨ops, rfl⟩ := h
  rw [(tables_build ops).symtab] at hsym
  rcases List.mem_cons.mp hsym with rfl | hmem
  · rfl
  · obtain ⟨k, hk⟩ := List.mem_iff_getElem?.mp hmem
    rw [getElem?_entriesFrom] at hk
    obtain ⟨item, -, rfl⟩ := Option.map_eq_some_iff.mp hk
    rw [Elf32Sym.binding, Item.stInfo_entry]
    rfl

/-- Some `.globl` directive of the program names the label. -/
def Program.Globl (p : Program) (l : Str) : Prop :=
  ∃ symbol, .directive (.global symbol) ∈ p.reductions ∧ symbol.text = l

/-- In the symbol table of the object the entries of the labels that a `.globl` names have the global
binding, and the others the local one. -/
def Program.BindsRight (p : Program) (e : ELF32) : Prop :=
  ∀ sym ∈ e.symtab.data, ∀ l, p.Entered l sym →
    (sym.binding = stbGlobal ↔ p.Globl l) ∧ (sym.binding = stbLocal ↔ ¬ p.Globl l)

/-- The label of a `.globl` has an entry, which is local. -/
theorem Program.exists_local_of_global {p : Program} {e : ELF32} (h : p.assemble = .ok e)
    {symbol : Symbol} (hmem : .directive (.global symbol) ∈ p.reductions) :
    ∃ sym ∈ e.symtab.data, p.Entered symbol.text sym ∧ sym.binding = stbLocal := by
  have hlocal : ∀ sym ∈ e.symtab.data, sym.binding = stbLocal := by
    intro sym hsym
    exact (reachable h).binding_eq hsym
  obtain ⟨u, hu, hfix⟩ := bind_eq_ok.mp h
  cases hfix
  obtain ⟨sym, hsym⟩ := (exists_entered_iff hu symbol.text).mpr (Or.inl ⟨_, hmem, rfl⟩)
  have hin : sym ∈ u.elf.resolveUnresolvedInstructions.symtab.data := by
    rw [u.elf.tables_resolveUnresolvedInstructions.1]
    exact (mem_symtab_iff hu).mpr (Or.inr ⟨_, hsym⟩)
  exact ⟨sym, hin, hsym, hlocal sym hin⟩

/-- **When the bindings are right**: when the program has no `.globl`. -/
theorem Program.bindsRight_iff (p : Program) (e : ELF32) (h : p.assemble = .ok e) :
    p.BindsRight e ↔ ∀ symbol, .directive (.global symbol) ∉ p.reductions := by
  constructor
  · intro hright symbol hmem
    obtain ⟨sym, hin, hsym, hlocal⟩ := exists_local_of_global h hmem
    exact ((hright sym hin _ hsym).2.mp hlocal) ⟨symbol, hmem, rfl⟩
  · intro hno sym hin l hsym
    have hnot : ¬ p.Globl l := by
      rintro ⟨symbol, hmem, -⟩
      exact hno symbol hmem
    rw [(reachable h).binding_eq hin]
    exact ⟨iff_of_false (by decide) hnot, iff_of_true rfl hnot⟩

/-- `forward` has no `.globl`. -/
theorem forward_bindsRight : ∃ e, forward.assemble = .ok e ∧ forward.BindsRight e := by
  refine ⟨_, rfl, (forward.bindsRight_iff _ rfl).mpr ?_⟩
  intro symbol hmem
  simp [forward, program, Program.reductions, reductionsOf, Statement.reductions, block] at hmem

/-- In `strlen.s` the symbol `strlen` is declared `.globl`, and local. -/
theorem strlen_not_bindsRight : ¬ ∀ (p : Program) e, p.assemble = .ok e → p.BindsRight e := by
  intro h
  have hmem : .directive (.global (sym "strlen")) ∈ strlen.reductions :=
    List.mem_cons_of_mem _ List.mem_cons_self
  obtain ⟨entry, hin, hsym, hlocal⟩ := Program.exists_local_of_global rfl hmem
  exact ((h strlen _ rfl entry hin _ hsym).2.mp hlocal) ⟨_, hmem, rfl⟩

end RiscvAssembler
