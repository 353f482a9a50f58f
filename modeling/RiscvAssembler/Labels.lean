import RiscvAssembler.FixupPass

/-!
# The addresses of labels

* `labelsPlaced_iff`: when `L: instructions` has been reduced, `resolved_labels[L]` is the index at which
  the block starts, then and later, exactly when the block has one word or there is no word at all;
  a label that an earlier `.globl` has recorded must start the section. The code records the index
  of the last word at the time of the reduction, and the reduction comes after the block.
* `labelToAddr_lookup`: the address found for a hash is that of the last label recorded with this
  hash (`lastNamesake`).
* `target_iff`: the pass sends a pending reference to `resolved_labels[L]` exactly when that label
  is at the same address.
-/

namespace RiscvAssembler

open Runs ParserState

/-! ## Where a block is placed -/

/-- A recorded address is at most the last index of `.text`. -/
theorem lookup_le {rs : List Reduction} {s : ParserState} (h : run step start rs = .ok s) {l : Str}
    {addr : Word} (hl : s.elf.resolvedLabels.lookup l = some addr) :
    addr.toNat ≤ s.elf.secText.data.length - 1 := by
  refine run_invariant (fun s => ∀ l addr, s.elf.resolvedLabels.lookup l = some addr →
    addr.toNat ≤ s.elf.secText.data.length - 1) ?_ ?_ h l addr hl
  · intro s r t hs hstep l addr hl
    have hlen : s.elf.secText.data.length ≤ t.elf.secText.data.length := by
      rw [step_text hstep]
      simp
    rcases step_labels hstep with ⟨l', -, -, hres, -⟩ | ⟨-, hres, -⟩
    · rw [hres] at hl
      by_cases hll : l = l'
      · subst hll
        rw [AList.lookup_insert] at hl
        cases hl
        rw [labelAddr, BitVec.toNat_ofNat, Text.lastIndex_eq]
        exact (Nat.mod_le _ _).trans (by omega)
      · rw [AList.lookup_insert_ne hll] at hl
        exact (hs l addr hl).trans (by omega)
    · rw [hres] at hl
      exact (hs l addr hl).trans (by omega)
  · intro l addr hl
    cases hl

/-- A block of instructions records no label. -/
theorem resolvedLabels_block {s v : ParserState} {is : List Instruction}
    (h : run step s (is.map Reduction.instruction) = .ok v) :
    v.elf.resolvedLabels = s.elf.resolvedLabels := by
  refine run_project (fun s => s.elf.resolvedLabels) ?_ h
  intro r hr s t ht
  obtain ⟨i, -, rfl⟩ := List.mem_map.mp hr
  exact (step_instruction ht).resolvedLabels

/-- `label` has the index at which its block starts when the state was `s` in front of the block and
`v` behind it: either it is new, and there is no word or the block has one, or it had been recorded
and there is no word in front of the block. -/
def StartRecorded (s v : ParserState) (label : Str) : Prop :=
  if s.elf.labelExists label then s.elf.secText.data.length = 0
  else
    v.elf.secText.data.length = 0 ∨
      s.elf.secText.data.length < 2 ^ 32 ∧
        (v.elf.secText.data.length - s.elf.secText.data.length) % 2 ^ 32 = 1

/-- **When a label has the address of its block.** The program has been parsed up to `s`, then the
block up to `v`, then the label and whatever comes after it up to `u`. -/
theorem placed_iff (ss : List Statement) (label : Symbol) (b : Instructions)
    (rest : List Reduction) (s v u : ParserState)
    (hs : run step start (reductionsOf ss) = .ok s)
    (hv : run step s (b.toList.map Reduction.instruction) = .ok v)
    (hu : run step v (.labelInstructions label :: rest) = .ok u) :
    (∃ addr, u.elf.resolvedLabels.lookup label.text = some addr ∧
        addr.toNat = s.elf.secText.data.length) ↔
      StartRecorded s v label.text := by
  obtain ⟨t, ht, hu⟩ := run_cons_eq_ok.mp hu
  have hkeep := resolvedLabels_block hv
  have hlen : s.elf.secText.data.length ≤ v.elf.secText.data.length := (run_text hv).length_le
  unfold StartRecorded
  split_ifs with hex
  · -- an earlier address is kept, and it is below the start of the block
    obtain ⟨addr, hl⟩ := s.elf.labelExists_iff.mp hex
    have hlu : u.elf.resolvedLabels.lookup label.text = some addr := by
      rw [← hkeep] at hl
      exact run_lookup (run_cons_eq_ok.mpr ⟨t, ht, hu⟩) hl
    have hle := lookup_le hs hl
    simp only [hlu, Option.some.injEq, exists_eq_left']
    omega
  · have hnew : v.elf.labelExists label.text = false := by
      simpa [ELF32.labelExists, hkeep] using hex
    have hlt : t.elf.resolvedLabels.lookup label.text = some v.labelAddr := by
      rcases step_labels ht with ⟨l, hl, -, hres, -⟩ | ⟨hold, -, -⟩
      · cases hl
        rw [hres, AList.lookup_insert]
      · rw [hold _ rfl] at hnew
        cases hnew
    simp only [run_lookup hu hlt, Option.some.injEq, exists_eq_left', labelAddr,
      BitVec.toNat_ofNat, Text.lastIndex_eq]
    omega

/-- In the state that the reductions `rs` lead to, every label that they attach to a block has the
index at which its block starts. -/
def LabelsPlaced (rs : List Reduction) (u : ParserState) : Prop :=
  ∀ ss label (b : Instructions) rest s,
    rs = reductionsOf ss ++ (b.toList.map Reduction.instruction ++ .labelInstructions label :: rest) →
    run step start (reductionsOf ss) = .ok s →
    ∃ addr, u.elf.resolvedLabels.lookup label.text = some addr ∧
      addr.toNat = s.elf.secText.data.length

/-- **When labels have the addresses of their blocks**, in any state that the parser reaches. -/
theorem labelsPlaced_iff (rs : List Reduction) (u : ParserState) (h : run step start rs = .ok u) :
    LabelsPlaced rs u ↔ ∀ ss label (b : Instructions) rest s v,
      rs = reductionsOf ss ++ (b.toList.map Reduction.instruction ++ .labelInstructions label :: rest) →
      run step start (reductionsOf ss) = .ok s →
      run step s (b.toList.map Reduction.instruction) = .ok v → StartRecorded s v label.text := by
  constructor
  · intro hplaced ss label b rest s v hrs hs hv
    have hu := run_behind hv (run_behind hs (hrs ▸ h))
    exact (placed_iff ss label b rest s v u hs hv hu).mp (hplaced ss label b rest s hrs hs)
  · intro hrecorded ss label b rest s hrs hs
    obtain ⟨v, hv, hu⟩ := run_append_eq_ok.mp (run_behind hs (hrs ▸ h))
    exact (placed_iff ss label b rest s v u hs hv hu).mpr (hrecorded ss label b rest s v hrs hs hv)

/-- The label of one block of one word is recorded where the block starts. -/
theorem one_word_placed :
    ∃ u, run step start [.instruction (.psuedo .ret), .labelInstructions (sym "a")] = .ok u ∧
      LabelsPlaced [.instruction (.psuedo .ret), .labelInstructions (sym "a")] u := by
  refine ⟨_, rfl, (labelsPlaced_iff _ _ rfl).mpr ?_⟩
  intro ss label b rest s v hrs hs hv
  rcases ss with _ | ⟨st, ss⟩
  · -- the block is the one in front of `a`
    obtain ⟨is, his⟩ := b
    rcases is with _ | ⟨i, _ | ⟨i', is⟩⟩
    · exact absurd rfl his
    · obtain ⟨rfl, rfl, rfl⟩ : .psuedo .ret = i ∧ sym "a" = label ∧ rest = [] := by
        simpa [reductionsOf] using hrs
      cases hs
      cases hv
      exact Or.inr ⟨by decide, by decide⟩
    · simp [reductionsOf] at hrs
  · -- two reductions are not enough for a statement and a block behind it
    have hst : 0 < st.reductions.length := by cases st <;> simp [Statement.reductions]
    have hb : 0 < b.toList.length := List.length_pos_iff.mpr b.nonempty
    have hlen := congrArg List.length hrs
    rw [reductionsOf_cons] at hlen
    simp only [List.length_append, List.length_cons, List.length_nil, List.length_map] at hlen
    omega

/-- A block of two words at the start of the section is recorded at its second word. -/
theorem two_words_misplaced :
    ¬ ∀ (rs : List Reduction) u, run step start rs = .ok u → LabelsPlaced rs u := by
  intro h
  obtain ⟨addr, hl, h0⟩ := h
    [.instruction (.psuedo (.mov 10 5)), .instruction (.psuedo .ret), .labelInstructions (sym "a")] _
    rfl [] (sym "a") (block (.psuedo (.mov 10 5)) [.psuedo .ret]) [] start rfl rfl
  have hl' : some addr = some 1 := hl.symm.trans (by decide)
  cases hl'
  revert h0
  decide

/-! ## Where a pending reference is sent -/

/-- The labels that some reductions record, each once, in the order in which they are recorded. -/
def labelsOf (rs : List Reduction) : List Str := (rs.filterMap Reduction.records).eraseDups

/-- The last label recorded whose name has the given hash. -/
def lastNamesake (rs : List Reduction) (hash : Word) : Option Str :=
  ((labelsOf rs).filter fun l => hasher l = hash).getLast?

/-- One more reduction adds its label at the end, unless it is there. -/
theorem labelsOf_concat (rs : List Reduction) (r : Reduction) :
    labelsOf (rs ++ [r]) =
      match r.records with
      | some l => if l ∈ rs.filterMap Reduction.records then labelsOf rs else labelsOf rs ++ [l]
      | none => labelsOf rs := by
  unfold labelsOf
  rw [List.filterMap_append, List.eraseDups_append]
  cases hr : r.records with
  | none => simp [hr]
  | some l =>
      simp only [List.filterMap_cons, hr, List.filterMap_nil]
      generalize rs.filterMap Reduction.records = ls
      split_ifs with hmem <;> simp [List.removeAll, List.eraseDups_cons, hmem]

/-- **Addresses of hashes.** What `label_to_addr` has for a hash is the address of the last label
recorded with this hash. -/
theorem labelToAddr_lookup {rs : List Reduction} {u : ParserState} (h : run step start rs = .ok u)
    (hash : Word) :
    u.elf.labelToAddr.lookup hash =
      (lastNamesake rs hash).bind fun l => u.elf.resolvedLabels.lookup l := by
  refine run_history (fun rs u => u.elf.labelToAddr.lookup hash =
    (lastNamesake rs hash).bind fun l => u.elf.resolvedLabels.lookup l) rfl ?_ h
  intro pre s r t hpre ih hstep
  have hmem : ∀ l, l ∈ pre.filterMap Reduction.records ↔ s.elf.labelExists l = true := by
    intro l
    rw [labelExists_iff hpre, List.mem_filterMap]
  rcases step_labels hstep with ⟨l, hr, hnew, hres, haddr⟩ | ⟨hold, hres, haddr⟩
  · have hls : labelsOf (pre ++ [r]) = labelsOf pre ++ [l] := by
      rw [labelsOf_concat, hr]
      exact if_neg (by simp [hmem, hnew])
    rw [lastNamesake, hls, hres, haddr, List.filter_append]
    by_cases hhash : hasher l = hash
    · simp [hhash]
    · -- the new label has another hash, so it is not the one that is looked up
      have hne : ∀ l', lastNamesake pre hash = some l' → l' ≠ l := by
        rintro l' hl' rfl
        have hin := List.mem_of_getLast? hl'
        rw [List.mem_filter, decide_eq_true_eq] at hin
        exact hhash hin.2
      rw [AList.lookup_insert_ne (Ne.symm hhash), ih]
      simp only [List.filter_cons, hhash, decide_false, Bool.false_eq_true, if_false,
        List.filter_nil, List.append_nil]
      change (lastNamesake pre hash).bind _ = (lastNamesake pre hash).bind _
      cases hl' : lastNamesake pre hash with
      | none => rfl
      | some l' => exact (AList.lookup_insert_ne (hne l' hl')).symm
  · have hls : labelsOf (pre ++ [r]) = labelsOf pre := by
      rw [labelsOf_concat]
      cases hr : r.records with
      | none => rfl
      | some l => exact if_pos ((hmem l).mpr (hold l hr))
    rw [lastNamesake, hls, hres, haddr, ih]
    rfl

/-- The last namesake of a label that has an address has an address too. -/
theorem lastNamesake_of_lookup {rs : List Reduction} {u : ParserState}
    (h : run step start rs = .ok u) {l : Str} (hl : u.elf.labelExists l = true) :
    ∃ m addr, lastNamesake rs (hasher l) = some m ∧ u.elf.resolvedLabels.lookup m = some addr := by
  have hmem : ∀ l, l ∈ labelsOf rs ↔ u.elf.labelExists l = true := by
    intro l
    rw [labelsOf, List.mem_eraseDups, List.mem_filterMap, labelExists_iff h]
  have hfilter : l ∈ (labelsOf rs).filter fun l' => hasher l' = hasher l := by
    rw [List.mem_filter]
    exact ⟨(hmem l).mpr hl, by simp⟩
  obtain ⟨m, hm⟩ : ∃ m, lastNamesake rs (hasher l) = some m :=
    ⟨_, List.getLast?_eq_some_getLast (List.ne_nil_of_mem hfilter)⟩
  have hin := (List.mem_filter.mp (List.mem_of_getLast? hm)).1
  obtain ⟨addr, haddr⟩ := u.elf.labelExists_iff.mp ((hmem m).mp hin)
  exact ⟨m, addr, hm, haddr⟩

/-- The object that the pass has made when it comes to the entries after the given ones. -/
def ParserState.passUpTo (u : ParserState) (entries : List UnresolvedInst32) : ELF32 :=
  entries.foldl ELF32.resolveInstruction u.elf

/-- The index that the pass finds for a pending reference to a defined label: that of the last label
recorded with its hash. -/
theorem Program.Pending.target_eq {p : Program} {pre : List Reduction} {i : Instruction}
    {insnType : InstType} {label : Str} {s u : ParserState}
    (h : p.Pending pre i insnType label s u) (hl : u.elf.labelExists label = true) :
    ∃ m addr, lastNamesake p.reductions (hasher label) = some m ∧
      u.elf.resolvedLabels.lookup m = some addr ∧
      ((u.passUpTo s.elf.unresolvedInstructions).labelToAddrAt
        (s.pendingEntry insnType label).hash).2 = addr := by
  have hrun : run step start p.reductions = .ok u := h.after
  obtain ⟨m, addr, hm, haddr⟩ := lastNamesake_of_lookup hrun hl
  have hhash : (s.pendingEntry insnType label).hash = hasher label := rfl
  refine ⟨m, addr, hm, haddr, ?_⟩
  rw [ELF32.labelToAddrAt_snd, passUpTo, (u.elf.foldl_resolveInstruction _).2, hhash, ELF32.target,
    labelToAddr_lookup hrun, hm]
  simp [haddr]

/-- **Where a pending reference to a defined label is sent**: to the label's address iff the last
label recorded with its hash has that address. -/
theorem target_iff (p : Program) (pre : List Reduction) (i : Instruction) (insnType : InstType)
    (label : Str) (s u : ParserState) (h : p.Pending pre i insnType label s u) (addr : Word)
    (haddr : u.elf.resolvedLabels.lookup label = some addr) :
    ((u.passUpTo s.elf.unresolvedInstructions).labelToAddrAt
        (s.pendingEntry insnType label).hash).2 = addr ↔
      ∀ m, lastNamesake p.reductions (hasher label) = some m →
        u.elf.resolvedLabels.lookup m = some addr := by
  obtain ⟨m, addr', hm, haddr', htarget⟩ :=
    h.target_eq (u.elf.labelExists_iff.mpr ⟨addr, haddr⟩)
  simp only [htarget, hm, Option.some.injEq, forall_eq', haddr']

/-- `a: beq x5, x6, b` and `b: ret`, in `.section .text`. -/
def forward : Program :=
  program (.directive .sectionText)
    [.labelInstructions (sym "a") (block (.branch .beq 5 6 (sym "b")) []),
      .labelInstructions (sym "b") (block (.psuedo .ret) [])]

/-- The branch of `forward` is sent to `b`. -/
theorem forward_target : ∃ s u,
    forward.Pending [.directive .sectionText] (.branch .beq 5 6 (sym "b")) .bType (str "b") s u ∧
      ((u.passUpTo s.elf.unresolvedInstructions).labelToAddrAt
        (s.pendingEntry .bType (str "b")).hash).2 = 1 := by
  refine ⟨start.directiveAction .sectionText, _, ⟨⟨_, rfl⟩, rfl, rfl, by decide, rfl⟩,
    (target_iff forward _ (.branch .beq 5 6 (sym "b")) .bType (str "b")
      (start.directiveAction .sectionText) _ ⟨⟨_, rfl⟩, rfl, rfl, by decide, rfl⟩ 1 rfl).mpr
      ?_⟩
  intro m hm
  have hm' : some m = some (str "b") := hm.symm.trans (by decide)
  cases hm'
  rfl

/-- Two labels whose names have one hash: a branch to the first ends up at the second. -/
def clash : Program :=
  program (.labelInstructions (sym "a") (block (.branch .beq 5 6 (sym "costarring")) []))
    [.labelInstructions (sym "costarring") (block (.psuedo .ret) []),
      .labelInstructions (sym "liquid") (block (.psuedo .ret) [])]

/-- The branch of `clash` is sent to index 2, where `liquid` is; `costarring` is at 1. -/
theorem clash_target : ¬ ∀ (p : Program) pre i insnType label s u addr,
    p.Pending pre i insnType label s u → u.elf.resolvedLabels.lookup label = some addr →
    ((u.passUpTo s.elf.unresolvedInstructions).labelToAddrAt
      (s.pendingEntry insnType label).hash).2 = addr := by
  intro h
  have htarget := h clash [] (.branch .beq 5 6 (sym "costarring")) .bType (str "costarring") start _ 1
    ⟨⟨_, rfl⟩, rfl, rfl, by decide, rfl⟩ rfl
  revert htarget
  decide

end RiscvAssembler
