import RiscvAssembler.FixupPass

/-!
# The two label maps

`resolved_labels` has the names that have an address, `unresolved_labels` those that were asked for in
vain.

* `labelStep_apply`: what a call does to both maps, seen from one name.
* `labelBookkeeping`: what they say after any sequence of calls about the calls.
-/

namespace RiscvAssembler

open Runs

/-- The call gives the name an address, unless it has one. -/
def Op.Defines (name : Str) : Op → Prop
  | .initLabel label _ _ => label = name
  | .updateLabelVisibility label _ => label = name
  | _ => False

/-! ## One call -/

namespace ELF32

variable (e : ELF32)

/-- What a call does to the two maps, seen from one name: it defines the name, it looks it up in vain, or
it leaves both as they are. -/
inductive LabelStep (name : Str) (op : Op) (e' : ELF32) : Prop
  | defines (hop : op.Defines name) (hnew : e.resolvedLabels.lookup name = none)
      (hresolved : e'.resolvedLabels.lookup name = some (BitVec.ofNat 32 e.secText.lastIndex))
      (hunresolved : name ∉ e'.unresolvedLabels)
  | looksUp (hop : op = .resolveLabel name) (hnew : e.resolvedLabels.lookup name = none)
      (hresolved : e'.resolvedLabels.lookup name = none) (hunresolved : name ∈ e'.unresolvedLabels)
  | keeps (hop : op.Defines name ∨ op = .resolveLabel name → name ∈ e.resolvedLabels)
      (hresolved : e'.resolvedLabels.lookup name = e.resolvedLabels.lookup name)
      (hunresolved : name ∈ e'.unresolvedLabels ↔ name ∈ e.unresolvedLabels)

/-- `init_label` on a new name takes it out of `unresolved_labels`. -/
theorem unresolvedLabels_initLabel {l : Str} (isGlobal : Bool) (sectionName : Str)
    (h : e.labelExists l = false) :
    (e.initLabel l isGlobal sectionName).unresolvedLabels = e.unresolvedLabels.erase l := by
  simp [initLabel, h, storeRegularString]

/-- A call of `init_label`. -/
theorem labelStep_initLabel (name label : Str) (isGlobal : Bool) (sectionName : Str) :
    e.LabelStep name (.initLabel label isGlobal sectionName)
      (e.initLabel label isGlobal sectionName) := by
  cases hex : e.labelExists label with
  | true =>
      rw [e.initLabel_of_exists _ _ hex]
      refine .keeps ?_ rfl Iff.rfl
      rintro (hop | hop)
      · exact hop ▸ of_decide_eq_true hex
      · cases hop
  | false =>
      have hresolved := (e.initLabel_of_new sectionName isGlobal hex).1
      have hunresolved := e.unresolvedLabels_initLabel isGlobal sectionName hex
      by_cases hname : label = name
      · subst hname
        refine .defines rfl (e.labelExists_eq_false.mp hex) ?_ ?_
        · rw [hresolved, AList.lookup_insert]
        · rw [hunresolved, AList.mem_erase]
          exact fun h => h.1 rfl
      · refine .keeps ?_ ?_ ?_
        · rintro (hop | hop)
          · exact absurd hop hname
          · cases hop
        · rw [hresolved, AList.lookup_insert_ne (Ne.symm hname)]
        · rw [hunresolved, AList.mem_erase]
          exact and_iff_right (Ne.symm hname)

/-- **One call**, seen from one name. -/
theorem labelStep_apply (name : Str) (op : Op) : e.LabelStep name op (op.apply e) := by
  have hkept : ∀ {e' : ELF32}, ¬ op.Defines name → (∀ l, op ≠ .resolveLabel l) →
      e'.resolvedLabels = e.resolvedLabels → e'.unresolvedLabels = e.unresolvedLabels →
      e.LabelStep name op e' := by
    intro e' hdef hres hresolved hunresolved
    refine .keeps ?_ (by rw [hresolved]) (by rw [hunresolved])
    rintro (hop | hop)
    · exact absurd hop hdef
    · exact absurd hop (hres name)
  cases op with
  | initLabel label isGlobal sectionName => exact e.labelStep_initLabel name label isGlobal sectionName
  | updateLabelVisibility label isGlobal =>
      rw [Op.apply, e.updateLabelVisibility_eq]
      rcases e.labelStep_initLabel name label isGlobal (str ".text") with
        ⟨hop, hnew, hres, hun⟩ | ⟨hop, -, -, -⟩ | ⟨hop, hres, hun⟩
      · exact .defines hop hnew hres hun
      · cases hop
      · refine .keeps ?_ hres hun
        rintro (hdef | hlook)
        · exact hop (Or.inl hdef)
        · cases hlook
  | resolveLabel label =>
      cases hl : e.resolvedLabels.lookup label with
      | some addr =>
          have hsame : (Op.resolveLabel label).apply e = e := by
            simp only [Op.apply, e.resolveLabel_of_some hl]
          rw [hsame]
          refine .keeps ?_ rfl Iff.rfl
          rintro (hop | hop)
          · exact hop.elim
          · cases hop
            rw [← AList.lookup_isSome, hl]
            rfl
      | none =>
          simp only [Op.apply, e.resolveLabel_of_none hl]
          by_cases hname : label = name
          · subst hname
            exact .looksUp rfl hl hl (AList.mem_insert _ |>.mpr (Or.inl rfl))
          · refine .keeps ?_ rfl ?_
            · rintro (hop | hop)
              · exact hop.elim
              · cases hop
                exact absurd rfl hname
            · rw [AList.mem_insert]
              exact or_iff_right (Ne.symm hname)
  | addProgramData varName value sectionName =>
      refine hkept id (fun _ => by simp) (e.addProgramData_kept varName value sectionName).2.2.2.1 ?_
      simp only [Op.apply, addProgramData, storeRegularString, sectionToIdxAt]
      split <;> rfl
  | resolveUnresolvedInstructions =>
      refine hkept id (fun _ => by simp) ?_ ?_
      · exact project_resolveUnresolvedInstructions (fun e => e.resolvedLabels) (fun _ _ _ => rfl) e
      · exact project_resolveUnresolvedInstructions (fun e => e.unresolvedLabels) (fun _ _ _ => rfl) e
  | addSymbol symText sectionIdx offsetIdx symtabIdx isResolved isLabel =>
      exact hkept id (fun _ => by simp) rfl rfl
  | addToText instr => exact hkept id (fun _ => by simp) rfl rfl
  | addToUnresolvedInsns insnNumber insnType hash pcInsnNumber =>
      exact hkept id (fun _ => by simp) rfl rfl

/-! ## Sequences of calls -/

variable {e}

theorem build_concat (ops : List Op) (op : Op) : build (ops ++ [op]) = op.apply (build ops) := by
  rw [build, build, List.foldl_append, List.foldl_cons, List.foldl_nil]

/-- A name has an address behind a call that defines it, or if it had one. -/
theorem LabelStep.mem_resolvedLabels {name : Str} {op : Op} {e' : ELF32}
    (h : e.LabelStep name op e') :
    name ∈ e'.resolvedLabels ↔ op.Defines name ∨ name ∈ e.resolvedLabels := by
  cases h with
  | defines hop hnew hresolved hunresolved =>
      rw [← AList.lookup_isSome, hresolved]
      exact iff_of_true rfl (Or.inl hop)
  | looksUp hop hnew hresolved hunresolved =>
      refine iff_of_false (AList.lookup_eq_none.mp hresolved) ?_
      rintro (hdef | hmem)
      · cases hop
        exact hdef
      · exact AList.lookup_eq_none.mp hnew hmem
  | keeps hop hresolved hunresolved =>
      rw [← AList.lookup_isSome, hresolved, AList.lookup_isSome]
      exact ⟨Or.inr, fun h => h.elim (fun hdef => hop (Or.inl hdef)) id⟩

/-- Where no name is in both maps, a name is in `unresolved_labels` behind a call that looks it up in
vain, or if it was there and the call does not define it. -/
theorem LabelStep.mem_unresolvedLabels {name : Str} {op : Op} {e' : ELF32}
    (h : e.LabelStep name op e') (hdisjoint : name ∈ e.resolvedLabels → name ∉ e.unresolvedLabels) :
    name ∈ e'.unresolvedLabels ↔ (op = .resolveLabel name ∧ name ∉ e.resolvedLabels) ∨
      name ∈ e.unresolvedLabels ∧ ¬ op.Defines name := by
  cases h with
  | defines hop hnew hresolved hunresolved =>
      refine iff_of_false hunresolved ?_
      rintro (⟨rfl, -⟩ | ⟨-, hnot⟩)
      · exact hop
      · exact hnot hop
  | looksUp hop hnew hresolved hunresolved =>
      exact iff_of_true hunresolved (Or.inl ⟨hop, AList.lookup_eq_none.mp hnew⟩)
  | keeps hop hresolved hunresolved =>
      rw [hunresolved]
      constructor
      · exact fun hmem => Or.inr ⟨hmem, fun hdef => hdisjoint (hop (Or.inl hdef)) hmem⟩
      · rintro (⟨hlook, hnot⟩ | ⟨hmem, -⟩)
        · exact absurd (hop (Or.inr hlook)) hnot
        · exact hmem

/-- No name is in both maps. -/
theorem disjoint_build (ops : List Op) (name : Str) (h : name ∈ (build ops).resolvedLabels) :
    name ∉ (build ops).unresolvedLabels := by
  induction ops using List.reverseRecOn with
  | nil => exact AList.notMem_empty _
  | append_singleton ops op ih =>
      rw [build_concat] at h ⊢
      cases labelStep_apply (build ops) name op with
      | defines hop hnew hresolved hunresolved => exact hunresolved
      | looksUp hop hnew hresolved hunresolved => exact absurd h (AList.lookup_eq_none.mp hresolved)
      | keeps hop hresolved hunresolved =>
          rw [← AList.lookup_isSome, hresolved, AList.lookup_isSome] at h
          rw [hunresolved]
          exact ih h

/-- An address that has been recorded stays. -/
theorem lookup_build_append {ops : List Op} {name : Str} {addr : Word}
    (h : (build ops).resolvedLabels.lookup name = some addr) (more : List Op) :
    (build (ops ++ more)).resolvedLabels.lookup name = some addr := by
  induction more using List.reverseRecOn with
  | nil => rwa [List.append_nil]
  | append_singleton more op ih =>
      rw [← List.append_assoc, build_concat]
      cases labelStep_apply (build (ops ++ more)) name op with
      | defines hop hnew hresolved hunresolved =>
          rw [hnew] at ih
          cases ih
      | looksUp hop hnew hresolved hunresolved =>
          rw [hnew] at ih
          cases ih
      | keeps hop hresolved hunresolved => rw [hresolved, ih]

/-- What the two maps say about the calls that led to them. -/
structure LabelBookkeeping (ops : List Op) : Prop where
  disjoint : ∀ name, name ∈ (build ops).resolvedLabels → name ∉ (build ops).unresolvedLabels
  resolved : ∀ name, name ∈ (build ops).resolvedLabels ↔ ∃ op ∈ ops, op.Defines name
  /-- The name was looked up while it was not defined, and has not been defined since. -/
  unresolved : ∀ name, name ∈ (build ops).unresolvedLabels ↔
    ∃ pre post, ops = pre ++ .resolveLabel name :: post ∧ name ∉ (build pre).resolvedLabels ∧
      ∀ op ∈ post, ¬ op.Defines name
  stays : ∀ name addr, (build ops).resolvedLabels.lookup name = some addr →
    ∀ more, (build (ops ++ more)).resolvedLabels.lookup name = some addr

/-- **Label bookkeeping**, over every sequence of calls. -/
theorem labelBookkeeping (ops : List Op) : LabelBookkeeping ops where
  disjoint := disjoint_build ops
  resolved name := by
    have hlatch := latch_iff Op.apply init (fun e => name ∈ e.resolvedLabels)
      (fun _ op => op.Defines name) (fun _ => False) (AList.notMem_empty _)
      (fun pre op => by
        simpa using (labelStep_apply (pre.foldl Op.apply init) name op).mem_resolvedLabels) ops
    rw [build, hlatch]
    constructor
    · rintro ⟨pre, op, post, rfl, hop, -⟩
      exact ⟨op, by simp, hop⟩
    · rintro ⟨op, hmem, hop⟩
      obtain ⟨pre, post, rfl⟩ := List.append_of_mem hmem
      exact ⟨pre, op, post, rfl, hop, fun _ _ => id⟩
  unresolved name := by
    have hlatch := latch_iff Op.apply init (fun e => name ∈ e.unresolvedLabels)
      (fun e op => op = .resolveLabel name ∧ name ∉ e.resolvedLabels) (fun op => op.Defines name)
      (AList.notMem_empty _)
      (fun pre op => (labelStep_apply (build pre) name op).mem_unresolvedLabels
        (disjoint_build pre name)) ops
    rw [build, hlatch]
    constructor
    · rintro ⟨pre, op, post, hsplit, ⟨rfl, hnew⟩, hpost⟩
      exact ⟨pre, post, hsplit, hnew, hpost⟩
    · rintro ⟨pre, post, hsplit, hnew, hpost⟩
      exact ⟨pre, .resolveLabel name, post, hsplit, ⟨rfl, hnew⟩, hpost⟩
  stays _ _ h more := lookup_build_append h more

end ELF32

end RiscvAssembler
