import MacroAsm.Proofs.Assembly.Around
import MacroAsm.Proofs.Assembly.Values

/-!
# The argument that a macro call asks for

The body of a macro may ask for an argument of its call by a name. If the name is bound when the call is assembled, be
it a parameter of the macro or not, this is the argument of that call. If the name is bound behind the call, the
expression waits for it. What waits is evaluated in the end by the block around the call, with the arguments of that
block.

Main statement: `Entry.writes_argument`. It tells for every block which argument is written for a directive that asks
for one in a macro that the block calls. A call within another macro may so get an argument of the call of that macro
(`Assembler.exists_argument_ne`), and a call that is in no macro gets none.
-/

namespace MacroAsm

namespace Eval

variable {u : Surroundings} {radix : Nat} {b : Text → Binding} {loc l : Location} {function name : Text} {v : Expr}

/-- Of the call of a function of one argument, what the function makes of what is left of the argument is left. -/
theorem exists_of_leaves_call {f : Builtin} {e : Expr} (hf : Builtin.ofName? function = some f)
    (h : Leaves u radix b (.call loc function [e]) true v) :
    ∃ a, Leaves u radix b e true a ∧ settleCall u f loc function [a] = some v := by
  obtain ⟨n, hn⟩ := h
  rw [outcome, hf, Option.bind_some] at hn
  obtain ⟨args, hargs, hsettle⟩ := Option.bind_eq_some_iff.1 hn
  rw [outcomeAll] at hargs
  obtain ⟨a, ha, hmap⟩ := Option.bind_eq_some_iff.1 hargs
  obtain ⟨rest, hrest, rfl⟩ := Option.map_eq_some_iff.1 hmap
  rw [outcomeAll] at hrest
  cases hrest
  exact ⟨a, ⟨n, ha⟩, hsettle⟩

/-- An argument that is asked for by a name which stands for nothing is not found yet. -/
theorem eq_of_leaves_argument (hf : Builtin.ofName? function = some .arg) (hname : (b name).isSet = false)
    (h : Leaves u radix b (.call loc function [.identifier l name]) true v) :
    v = .call loc function [.identifier l name] := by
  obtain ⟨a, ha, hsettle⟩ := exists_of_leaves_call hf h
  obtain rfl := Entry.eq_of_leaves_unset hname ha
  cases hsettle
  rfl

/-- An argument that is asked for by a name which stands for a number is the one at that index. -/
theorem getElem?_of_leaves_argument {l' : Location} {via : Text} {c : Int64}
    (hf : Builtin.ofName? function = some .arg) (hname : b name = ⟨some (.number l' c via), false⟩)
    (h : Leaves u radix b (.call loc function [.identifier l name]) true v) :
    u.args[c.toInt.toNat]? = some v := by
  obtain ⟨a, ha, hsettle⟩ := exists_of_leaves_call hf h
  obtain ⟨l1, via1, rfl⟩ := Entry.exists_of_leaves_number hname ha
  have happly : Builtin.arg.apply u.args loc [.number l1 c via1] = .ok v := eq_ok_of_toOption hsettle
  have hnumber : (Expr.number l1 c via1).asNumber = .ok c := rfl
  rw [Builtin.apply, hnumber] at happly
  obtain ⟨i, hi, hbounds⟩ := Except.bind_eq_ok_iff.1 happly
  cases hi
  by_cases hnegative : c < 0
  · rw [if_pos hnegative] at hbounds
    cases hbounds
  · rw [if_neg hnegative] at hbounds
    cases hget : u.args[c.toInt.toNat]? with
    | none =>
      rw [hget] at hbounds
      cases hbounds
    | some a =>
      rw [hget] at hbounds
      cases hbounds
      rfl

end Eval

namespace Entry

open Eval (Leaves)

section Datum

variable {args : List Expr} {b b' : Text → Binding} {u : Surroundings} {radix : Nat} {loc : Location} {kind : DataKind}
  {e : Expr} {ts : List Token}

/-- What is written in the end for data in a nested block: the block enters and encodes it, and the block around
finishes what comes out. -/
def Nests (args : List Expr) (b : Text → Binding) (u : Surroundings) (radix : Nat) (b' : Text → Binding) (t : Token)
    (ts : List Token) : Prop :=
  ∃ unit item encoded tss, Enters ⟨unit, args⟩ (b Scope.radixName).radix b t [item] b ∧
    Completes ⟨unit, args⟩ (b Scope.radixName).radix b item encoded ∧
    List.Forall₂ (Finishes u radix b') ((Token.products encoded).map .spliced) tss ∧ ts = tss.flatten

/-- A nested block of data is written directive by directive. -/
theorem exists_nests {unit : Text} {body : List Token} {entered : List Item} {tss tss' : List (List Token)}
    (hbody : ∀ t ∈ body, t.isData = true)
    (henters : EntersAll ⟨unit, args⟩ (b Scope.radixName).radix b body entered b)
    (hcompletes : List.Forall₂ (Completes ⟨unit, args⟩ (b Scope.radixName).radix b) entered tss)
    (hfinishes : List.Forall₂ (Finishes u radix b') ((Token.products tss.flatten).map .spliced) tss') :
    ∃ parts, tss'.flatten = parts.flatten ∧ List.Forall₂ (Nests args b u radix b') body parts := by
  -- what the block leaves of the first directive is finished before what it leaves of the others
  induction body generalizing entered tss tss' with
  | nil =>
    cases henters
    cases hcompletes
    cases hfinishes
    exact ⟨[], rfl, .nil⟩
  | cons t rest ih =>
    rw [List.forall_mem_cons] at hbody
    cases henters with
    | cons hfirst hrest =>
      cases hfirst with
      | equate => cases hbody.1
      | data hvalues hresolved =>
        obtain ⟨encoded, tss, hencoded, hothers, rfl⟩ := List.forall₂_cons_left_iff.1 hcompletes
        rw [List.flatten_cons, Token.products_append, List.map_append] at hfinishes
        obtain ⟨tss₁, tss₂, rfl, hhere, hthere⟩ := exists_of_forall₂_append hfinishes
        obtain ⟨parts, hparts, hall⟩ := ih hbody.2 hrest hothers hthere
        refine ⟨tss₁.flatten :: parts, by rw [List.flatten_append, hparts, List.flatten_cons], .cons ?_ hall⟩
        exact ⟨unit, _, encoded, tss₁, .data hvalues hresolved, hencoded, hhere, rfl⟩

/-- What a nested block leaves of data of a single element, and what the block around finishes of it. -/
theorem Nests.exists_leaves (h : Nests args b u radix b' (.data loc kind [e]) ts) :
    ∃ unit v pending encoded tss, Leaves ⟨unit, args⟩ (b Scope.radixName).radix b e true v ∧
      (pending = false → v.isResolved = true) ∧
      Completes ⟨unit, args⟩ (b Scope.radixName).radix b ⟨.data loc kind [v], pending⟩ encoded ∧
      List.Forall₂ (Finishes u radix b') ((Token.products encoded).map .spliced) tss ∧ ts = tss.flatten := by
  obtain ⟨unit, item, encoded, tss, henters, hcompletes, hfinishes, rfl⟩ := h
  cases henters with
  | @data _ _ _ vs pending hvalues hresolved =>
    obtain ⟨v, rfl, hv⟩ := exists_of_forall₂_singleton hvalues
    exact ⟨unit, v, pending, encoded, tss, hv, fun hp => hresolved hp v (List.mem_singleton.2 rfl), hcompletes,
      hfinishes, rfl⟩

/-- Data whose element waits is evaluated by the block around, and encoded. -/
theorem Nests.of_waiting (hwaits : e.isResolved = false)
    (hleaves : ∀ unit v, Leaves ⟨unit, args⟩ (b Scope.radixName).radix b e true v → v = e)
    (h : Nests args b u radix b' (.data loc kind [e]) ts) :
    ∃ v ts', Leaves u radix b' e true v ∧ Encode.data kind [v] = .ok ts' ∧ Token.products ts = Token.products ts' := by
  obtain ⟨unit, v, pending, encoded, tss, hv, hresolved, hcompletes, hfinishes, rfl⟩ := h.exists_leaves
  obtain rfl := hleaves unit v hv
  have hpending : pending = true := by
    by_contra hp
    rw [hresolved (by simpa using hp)] at hwaits
    cases hwaits
  subst hpending
  have hencoded : Encode.data kind [v] = .ok encoded := by
    cases hcompletes with
    | pending hvalues hencoded =>
      obtain ⟨r, rfl, hr⟩ := exists_of_forall₂_singleton hvalues
      rwa [hleaves unit r hr] at hencoded
  -- what waits is not encoded, and is marked when it leaves the block
  have hkept : Token.products encoded = [.data v.loc kind [v]] := by
    rcases Encode.products_data_singleton hencoded with ⟨hconcrete, -⟩ | ⟨-, hkept⟩
    · cases v with
      | number | string | numeral => cases hwaits
      | _ => cases hconcrete
    · exact hkept
  have hmarked : Item.spliced (.data v.loc kind [v]) = ⟨.data v.loc kind [v], true⟩ := by
    rw [Item.spliced, Token.isResolved, Expr.allResolved, hwaits]
    rfl
  rw [hkept, List.map_singleton, hmarked] at hfinishes
  obtain ⟨ts', rfl, hfirst⟩ := exists_of_forall₂_singleton hfinishes
  cases hfirst.completes rfl with
  | pending hvalues hencoded =>
    obtain ⟨r, rfl, hr⟩ := exists_of_forall₂_singleton hvalues
    exact ⟨r, ts', hr, hencoded, by rw [List.flatten_singleton]⟩

/-- Data whose element is known is encoded by the nested block, unless only the linker knows it. -/
theorem Nests.of_known {a : Expr} (hresolved : a.isResolved = true)
    (hleaves : ∀ unit v, Leaves ⟨unit, args⟩ (b Scope.radixName).radix b e true v → v = a)
    (hstable : ∀ unit v, Leaves ⟨unit, args⟩ (b Scope.radixName).radix b a true v → v = a)
    (h : Nests args b u radix b' (.data loc kind [e]) ts) :
    ∃ ts', Encode.data kind [a] = .ok ts' ∧ Token.products ts = Token.products ts' := by
  obtain ⟨unit, v, pending, encoded, tss, hv, -, hcompletes, hfinishes, rfl⟩ := h.exists_leaves
  obtain rfl := hleaves unit v hv
  have hencoded : Encode.data kind [v] = .ok encoded := by
    cases hcompletes with
    | pending hvalues hencoded =>
      obtain ⟨r, rfl, hr⟩ := exists_of_forall₂_singleton hvalues
      rwa [hstable unit r hr] at hencoded
    | settled hencoded => exact hencoded
  rcases Encode.products_data_singleton hencoded with ⟨-, hts⟩ | ⟨-, hkept⟩
  · have hmark : ∀ t, (Item.spliced t).token = t := fun _ => rfl
    have hflatten := flatten_of_finishes hmark hts hfinishes
    refine ⟨encoded, hencoded, ?_⟩
    rw [hflatten, Token.products, Token.products, List.filter_filter]
    simp only [Bool.and_self]
  · have hmarked : Item.spliced (.data v.loc kind [v]) = ⟨.data v.loc kind [v], false⟩ := by
      rw [Item.spliced, Token.isResolved, Expr.allResolved, hresolved]
      rfl
    rw [hkept, List.map_singleton, hmarked] at hfinishes
    obtain ⟨ts', rfl, hfirst⟩ := exists_of_forall₂_singleton hfinishes
    cases hfirst.completes rfl with
    | settled hencoded => exact ⟨ts', hencoded, by rw [List.flatten_singleton]⟩

end Datum

section Call

variable {w : Workbench} {run : Runner} {s : State} {name : Text} {operands : List Expr}

/-- Evaluating the call of a macro leaves it and the scope as they are, if its operands are final. -/
theorem exec_reduce_call {u : Surroundings} (h : Eval.FinalAll u true operands) (loc nameLoc : Location) (name : Text)
    (s : State) :
    ∃ s1, (Token.reduce u (.dispatch ⟨loc, .identifier nameLoc name, operands⟩)).exec s =
      (.ok (.dispatch ⟨loc, .identifier nameLoc name, operands⟩), s1) ∧ s1.scope = s.scope := by
  obtain ⟨s1, hexec, hscope⟩ := Eval.exec_evaluateAll_of_final h s
  have hname : (Eval.nameOnly u (.identifier nameLoc name)).exec s = (.ok (.identifier nameLoc name), s) := rfl
  refine ⟨s1, ?_, hscope⟩
  rw [Token.reduce, Act.exec_bind_of_ok hname, Act.exec_bind_of_ok hexec]
  rfl

/-- A call with resolved operands fails if there are too few of them or a parameter cannot be bound. Otherwise it
expands the body, with the parameters bound in a new frame. -/
theorem exec_call (hrun : w.runner = some run) {sym : Symbol} {m : Macro} (hfind : s.scope.find? name = some sym)
    (htemplate : sym.template = some m) (hresolved : Expr.allResolved operands = true) (loc nameLoc : Location) :
    ∃ scope : Scope, scope.binding = s.scope.binding ∧
      ((∃ f s', f.fails = true ∧ ∀ item out,
          (Expand.call w false item ⟨loc, .identifier nameLoc name, operands⟩).exec (out, s) = (.error f, (out, s'))) ∨
        ∃ inner, Expand.bindAll loc m.parameters operands scope.nest = .ok inner ∧ ∀ item out,
          (Expand.call w false item ⟨loc, .identifier nameLoc name, operands⟩).exec (out, s) =
            (Expand.expand run ⟨⟨w.assembler.naming.name s.supply, operands⟩, true, true⟩ inner m.body true).exec
              (out, { s with scope, supply := s.supply + 1 })) := by
  -- the macro counts as used
  have hsame : ∀ sym : Symbol, ({ sym with used := true } : Symbol).binding = sym.binding := fun _ => rfl
  refine ⟨s.scope.modify name fun sym => { sym with used := true }, Scope.binding_modify hsame s.scope name, ?_⟩
  generalize hused : (s.scope.modify name fun sym => { sym with used := true }) = scope
  have hmacro : Expand.macroOf? s.scope ⟨loc, .identifier nameLoc name, operands⟩ = some (name, m) := by
    have htemplate' : (s.scope.find? name).bind Symbol.template = some m := by
      rw [hfind]
      exact htemplate
    rw [Expand.macroOf?]
    exact congrArg (Option.map _) htemplate'
  have huse : ∀ out, (liftM (Act.modifyScope fun s => s.modify name fun sym => { sym with used := true }) :
      Emission PUnit).exec (out, s) = (.ok ⟨⟩, (out, { s with scope })) := by
    rw [← hused]
    exact fun out => rfl
  have hcall : ∀ item out, (Expand.call w false item ⟨loc, .identifier nameLoc name, operands⟩).exec (out, s) =
      if operands.length < m.parameters.length then
        (.error (.report (.fail loc ("Expected at least " ++ Text.ofNat m.parameters.length ++
          " arguments, found " ++ Text.ofNat operands.length))), (out, { s with scope }))
      else (do
        let inner ← Emission.require (Expand.bindAll loc m.parameters operands scope.nest)
        Expand.expand run ⟨⟨w.assembler.naming.name s.supply, operands⟩, true, true⟩ inner m.body true).exec
          (out, { s with scope, supply := s.supply + 1 }) := by
    intro item out
    rw [Expand.call, Emission.exec_bind_of_ok (Emission.exec_scope (out, s)), hmacro]
    dsimp only
    rw [hresolved, if_neg (by decide), Emission.exec_bind_of_ok (huse out), Workbench.requireRunner, hrun]
    split <;> rfl
  by_cases hfew : operands.length < m.parameters.length
  · simp only [if_pos hfew] at hcall
    exact Or.inl ⟨_, _, rfl, hcall⟩
  · simp only [if_neg hfew] at hcall
    cases hbind : Expand.bindAll loc m.parameters operands scope.nest with
    | error c =>
      rw [hbind] at hcall
      exact Or.inl ⟨.raise c, _, rfl, hcall⟩
    | ok inner =>
      rw [hbind] at hcall
      exact Or.inr ⟨inner, rfl, hcall⟩

/-- What names stand for in the block of a call: the parameters stand for the operands. -/
def inside (m : Macro) (operands : List Expr) (b : Text → Binding) : Text → Binding :=
  Scope.shadow (Expand.ownOf m.parameters operands fun _ => none) b

/-- The second stage assembles the body of a macro over data with the operands as arguments. -/
theorem advances_bind_call (hrun : w.runner = some run) (hdata : run.AssemblesData) {t : Trail}
    (ht : t.stopped = false) {sym : Symbol} {m : Macro} (hfind : s.scope.find? name = some sym)
    (htemplate : sym.template = some m) (hbody : ∀ t ∈ m.body, t.isData = true)
    (hradix : (s.scope.binding Scope.radixName).isSet = true)
    (hoperands : ∀ a ∈ operands, a.isResolved = true ∧ ∀ u, Eval.Final u true a) (loc nameLoc : Location) :
    Advances t (fun items s' => s'.scope.binding = s.scope.binding ∧ (∀ i ∈ items, i.token.isInert = true) ∧
        Replay.Written operands (inside m operands s.scope.binding) m.body items)
      ((bindOne w (.settled (.dispatch ⟨loc, .identifier nameLoc name, operands⟩)) t).run s) := by
  obtain ⟨s1, hreduce, hscope⟩ := exec_reduce_call
    (Eval.finalAll_of_forall fun a ha => (hoperands a ha).2 w.around) loc nameLoc name s
  rw [← hscope] at hfind hradix
  obtain ⟨scope, hbinding, ⟨f, s2, hf, hexec⟩ | ⟨inner, hbind, hexec⟩⟩ := exec_call hrun hfind htemplate
    (Expr.allResolved_iff.2 fun a ha => (hoperands a ha).1) loc nameLoc
  · rw [bindOne, Stage.run_through_step ht (Pass.run_handle_of_ok rfl (Pass.exec_reduceFirst_of_ok hreduce)) rfl]
    exact advances_last_of_error rfl hf (hexec _ _)
  · have hshows := scope.shows_nest.bindAll hbind
    refine advances_bind_direct ht ⟨rfl, rfl, fun _ => rfl⟩ hreduce hscope fun pending out hout => ?_
    have hinside : Scope.shadow (Expand.ownOf m.parameters operands fun _ => none) scope.binding =
        inside m operands s.scope.binding := by
      rw [inside, hbinding, hscope]
    obtain ⟨items, s', hexpand, hafter, hinert, hitems⟩ := Replay.replays_expand hdata hbody
      (s := { s1 with scope, supply := s1.supply + 1 }) hinside (by
        rw [inside, ← hscope]
        exact Scope.isSet_shadow hradix _) hshows operands (w.assembler.naming.name s1.supply) true true true hout
    exact ⟨items, s', (hexec _ out).trans hexpand, hafter.trans hbinding, hinert, hitems⟩

end Call

section Argument

variable {w : Workbench} {run : Runner} {s s1 : State} {t : Trail} {kept : List Item} {before after : List Token}
  {operands : List Expr} {kind : DataKind}

/-- What is written is what data of an argument is encoded to. -/
def WritesArgument (args : List Expr) (i : Nat) (kind : DataKind) (ts : List Token) : Prop :=
  ∃ a ts', args[i]? = some a ∧ Encode.data kind [a] = .ok ts' ∧ Token.products ts = Token.products ts'

/-- What is written for a directive in the body of a macro. If it asks for an argument by a name that stands for a
number in the call, it is the argument of the call. If the name stands for nothing there and is bound behind the call,
it is the argument of the block around. -/
def WritesAsked (operands around : List Expr) (b : Text → Binding) (after : List Token) (t : Token)
    (ts : List Token) : Prop :=
  ∀ {loc argLoc indexLoc : Location} {kind : DataKind} {function index : Text} {c : Int64},
    t = .data loc kind [.call argLoc function [.identifier indexLoc index]] → Builtin.ofName? function = some .arg →
    (StandsForNumber b (.identifier indexLoc index) c → WritesArgument operands c.toInt.toNat kind ts) ∧
    (IsUnset b (.identifier indexLoc index) → BoundIn after (.identifier indexLoc index) c →
      WritesArgument around c.toInt.toNat kind ts)

/-- What a nested block writes for a directive of a body is what it asks for. -/
theorem Nests.writesAsked {u : Surroundings} {radix : Nat} {b inner b' : Text → Binding} {items : List Item}
    {ts : List Token} {t : Token} (henters : EntersAll u radix b after items b')
    (hoperands : ∀ a ∈ operands, a.isResolved = true ∧ ∀ u, Eval.Final u true a)
    (h : Nests operands inner u (b' Scope.radixName).radix b' t ts) : WritesAsked operands u.args inner after t ts := by
  rintro loc argLoc indexLoc kind function index c rfl hfunction
  refine ⟨?_, ?_⟩
  · -- the nested block finds the argument, and a resolved argument is left as it is from then on
    rintro ⟨_, _, l, via, heq, hknown⟩
    cases heq
    obtain ⟨unit, a, _, _, _, ha, -⟩ := h.exists_leaves
    have hfound := Eval.getElem?_of_leaves_argument hfunction hknown ha
    obtain ⟨hresolved, hfinal⟩ := hoperands a (List.mem_of_getElem? hfound)
    have hleaves : ∀ unit v, Leaves ⟨unit, operands⟩ (inner Scope.radixName).radix inner
        (.call argLoc function [.identifier indexLoc index]) true v → v = a := fun unit v hv =>
      Option.some.inj ((Eval.getElem?_of_leaves_argument hfunction hknown hv).symm.trans hfound)
    have hstable : ∀ unit v, Leaves ⟨unit, operands⟩ (inner Scope.radixName).radix inner a true v → v = a := by
      rintro unit v ⟨n, hn⟩
      exact Option.some.inj (hn.symm.trans (hfinal _ _ _).1)
    obtain ⟨ts', hencoded, hproducts⟩ := h.of_known hresolved hleaves hstable
    exact ⟨a, ts', hfound, hencoded, hproducts⟩
  · -- the nested block leaves the call, which the block around evaluates with its own arguments
    rintro ⟨_, _, heq, hunset⟩ hbound
    cases heq
    obtain ⟨_, _, l, via, heq, hlate⟩ := hbound.standsForNumber henters
    cases heq
    obtain ⟨a, ts', ha, hencoded, hproducts⟩ :=
      h.of_waiting rfl fun unit v hv => Eval.eq_of_leaves_argument hfunction hunset hv
    exact ⟨a, ts', Eval.getElem?_of_leaves_argument hfunction hlate ha, hencoded, hproducts⟩

/-- A block comes to the call of a macro over data, which may ask for arguments by names. Unless a failure is reported,
it writes what every directive of the body asks for: the argument of the call if the name is bound by then, and the
argument of the block around if the name is bound by an EQU behind the call. -/
theorem writes_argument (hrun : w.runner = some run) (hdata : run.AssemblesData)
    (hbefore : ∀ t ∈ before, t.isSequential = true) (hafter : ∀ t ∈ after, t.isEquate = true ∨ t.isData = true)
    (hfirst : (Stage.feed (bindOne w) (before.map .settled) Trail.empty).run s = (t, s1)) (hreached : Reached s1 t kept)
    {name : Text} {sym : Symbol} {m : Macro} (hfind : s1.scope.find? name = some sym)
    (htemplate : sym.template = some m) (hbody : ∀ t ∈ m.body, t.isData = true)
    (hoperands : ∀ a ∈ operands, a.isResolved = true ∧ ∀ u, Eval.Final u true a) (loc nameLoc : Location) :
    (∃ i ∈ ((w.run (before ++ .dispatch ⟨loc, .identifier nameLoc name, operands⟩ :: after)).run s).1.items,
      i.token.fails = true) ∨
    WritesAround w.around s1.scope.binding kept after
      (fun _ ts => ∃ parts, ts = parts.flatten ∧
        List.Forall₂ (WritesAsked operands w.around.args (inside m operands s1.scope.binding) after) m.body parts)
      ((w.run (before ++ .dispatch ⟨loc, .identifier nameLoc name, operands⟩ :: after)).run s).1.tokens := by
  have hcall : w.IsPassed (.dispatch ⟨loc, .identifier nameLoc name, operands⟩) := ⟨rfl, rfl, fun _ => rfl⟩
  rcases hrest : (Stage.feed (bindOne w)
    ((.dispatch ⟨loc, .identifier nameLoc name, operands⟩ :: after).map .settled) t).run s1 with ⟨t', s'⟩
  rw [run_around w hcall hbefore hafter hfirst hrest]
  have hbind :=
    advances_bind_call hrun hdata hreached.running hfind htemplate hbody hreached.radix hoperands loc nameLoc
  refine (writesAround (E := fun b => Finishes w.around (b Scope.radixName).radix b) hreached hafter hbind
    (fun b items' _ items hD i hi _ t s ht hs => advances_finish_inert w ht (hD.1 i hi) hs) hrest).imp_right
    fun h => h.imp ?_
  rintro b' items' ts henters
    ⟨items, tss, ⟨-, unit, entered, tss₁, reports, hentered, hcompletes, rfl, hreports⟩, hfinishes, rfl⟩
  rw [Replay.filter_written hreports] at hfinishes
  obtain ⟨parts, hparts, hall⟩ := exists_nests hbody hentered hcompletes hfinishes
  exact ⟨parts, hparts, hall.imp fun t ts h => h.writesAsked henters hoperands⟩

end Argument

/-- `DB @ARG(N)`. -/
def argumentN : Token := .data Location.none .bytes [.call Location.none "ARG" [.identifier Location.none "N"]]

/-- The call of the macro M with the argument 7. -/
def callM : Token := .dispatch ⟨Location.none, .identifier Location.none "M", [.literal Location.none 7]⟩

/-- `N EQU 0`. -/
def equateN : Token := .assign Location.none .equate (.identifier Location.none "N") (.literal Location.none 0)

/-- A block with the argument 9, in which blocks may be nested once. -/
def benchNine : Workbench :=
  ⟨(.bare 1), ⟨⟨"O", [.literal Location.none 9]⟩, true, true⟩, Assembler.runner (.bare 1) 1⟩

/-- A macro with a parameter P, of the directives `DB P` and `DB @ARG(N)`. -/
def macroM : Macro :=
  ⟨0, Location.none, ["P"], [.data Location.none .bytes [.identifier Location.none "P"], argumentN]⟩

/-- A state in which M is that macro. -/
def stateM : State := .start ⟨Scope.initial.root.insert "M" { template := some macroM }, []⟩

/-- The only name that stands for a value there is that of the radix. -/
theorem portableNames_stateM : Eval.PortableNames stateM.scope.binding := by
  intro name v hv
  rw [stateM, State.start, Scope.binding, Scope.find?_root, Frame.find?_insert] at hv
  split at hv
  · cases hv
  · refine portableNames_initial name v ?_
    rwa [Scope.binding, Scope.initial, Scope.find?_root]

/-- The block calls M with 7 and then binds N. After the 7 for the parameter it writes the argument of its own. -/
theorem writes_argument_callM :
    WritesAround benchNine.around stateM.scope.binding [] [equateN]
        (fun _ ts => ∃ seven nine, ts = seven ++ nine ∧ WritesArgument [.literal Location.none 9] 0 .bytes nine)
        ((benchNine.run ([] ++ callM :: [equateN])).run stateM).1.tokens ∧
      ((benchNine.run ([] ++ callM :: [equateN])).run stateM).1.tokens.flatMap Token.written = [7, 9] := by
  refine ⟨?_, by decide +kernel⟩
  have hquiet : ¬ ∃ i ∈ ((benchNine.run ([] ++ callM :: [equateN])).run stateM).1.items, i.token.fails = true := by
    decide +kernel
  have hoperands : ∀ a ∈ [Expr.literal Location.none 7], a.isResolved = true ∧ ∀ u, Eval.Final u true a :=
    List.forall_mem_singleton.2 ⟨rfl, fun _ => Eval.final_number _ _ _⟩
  have hreached : Reached stateM Trail.empty [] :=
    ⟨rfl, rfl, fun i hi => absurd hi List.not_mem_nil, by decide +kernel, portableNames_stateM⟩
  have hstart : (Stage.feed (bindOne benchNine) (([] : List Token).map .settled) Trail.empty).run stateM =
      (Trail.empty, stateM) := rfl
  have hfind : stateM.scope.find? "M" = some { template := some macroM } := by
    rw [stateM, State.start, Scope.find?_root, Frame.find?_insert, if_pos rfl]
  have hunset : IsUnset (inside macroM [.literal Location.none 7] stateM.scope.binding)
      (.identifier Location.none "N") := ⟨_, _, rfl, by decide +kernel⟩
  have hbound : BoundIn [equateN] (.identifier Location.none "N") 0 :=
    ⟨_, _, _, _, _, _, rfl, List.mem_cons_self⟩
  have hrun := Assembler.runner_succ (.bare 1) 0
  refine ((writes_argument hrun (Assembler.assemblesData_runner hrun) (by decide) (by decide) hstart hreached hfind
    rfl (by decide) hoperands Location.none Location.none).resolve_left hquiet).imp ?_
  rintro _ _ _ - ⟨parts, rfl, hparts⟩
  obtain ⟨seven, rest, -, hrest, rfl⟩ := List.forall₂_cons_left_iff.1 hparts
  obtain ⟨nine, rfl, hnine⟩ := exists_of_forall₂_singleton hrest
  refine ⟨seven, nine, ?_, (hnine rfl rfl).2 hunset hbound⟩
  rw [List.flatten_cons, List.flatten_singleton]

end Entry

open Entry in
/-- A macro O calls M with 7 and is called with 9. If N is bound behind the call of M then the 9 is written, and no
diagnostic tells. If it is bound before that, the 7 is written. -/
theorem Assembler.exists_argument_ne :
    let programOf (body : List Token) : List Token :=
      [.macroDef Location.none (.identifier Location.none "M") [] [argumentN],
        .macroDef Location.none (.identifier Location.none "O") [] body,
        .dispatch ⟨Location.none, .identifier Location.none "O", [.literal Location.none 9]⟩]
    let late := assemble (.bare 3) Scope.initial (programOf [callM, equateN])
    let early := assemble (.bare 3) Scope.initial (programOf [equateN, callM])
    (∀ t ∈ late.tokens, t.isMessage = false) ∧ (∀ t ∈ early.tokens, t.isMessage = false) ∧
      late.tokens.flatMap Token.written = [9] ∧ early.tokens.flatMap Token.written = [7] := by
  decide +kernel

end MacroAsm
