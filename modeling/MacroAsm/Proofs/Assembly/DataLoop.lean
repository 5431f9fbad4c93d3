import MacroAsm.Proofs.Assembly.DataBlock

/-!
# Loops over data

A DUP replays its body as so many nested blocks. If the body is data, each turn writes what a block of data
writes (`Replay.Written`), and after it names stand for what they stood for before (`Replay.replays_turn`). So do
all turns of a DUP with a known count (`Replay.replays_dup`). An output is closed before the last turn only by a
failure.
-/

namespace MacroAsm

namespace Token

/-- A diagnostic that ends a block of data fails the run. -/
theorem fails_of_isTerminal {t : Token} (ht : t.isInert = true) {inMacro : Bool}
    (hterminal : t.isTerminal inMacro = true) : t.fails = true := by
  cases t with
  | message d => exact fails_of_isFatal hterminal
  | data | bytes => cases hterminal
  | _ => cases ht

/-- Of data, what it is encoded to and diagnostics, nothing ends a block unless it fails the run. -/
theorem isTerminal_of_isInert {t : Token} (ht : t.isInert = true) (hfails : t.fails = false) (inMacro : Bool) :
    t.isTerminal inMacro = false := by
  by_contra hterminal
  rw [fails_of_isTerminal ht (by simpa using hterminal)] at hfails
  cases hfails

end Token

namespace Output

theorem pushAll_append (o : Output) (items items' : List Item) :
    o.pushAll (items ++ items') = (o.pushAll items).pushAll items' :=
  List.foldl_append

/-- An output that takes data, what it is encoded to and diagnostics is closed by a failure only. -/
theorem fails_of_closed_pushAll {o : Output} (ho : o.closed = false) {items : List Item}
    (hitems : ∀ item ∈ items, item.token.isInert = true) (hclosed : (o.pushAll items).closed = true) :
    ∃ item ∈ items, item.token.fails = true := by
  by_contra hnone
  push Not at hnone
  have hopen := (items_pushAll ho fun item hitem =>
    Token.isTerminal_of_isInert (hitems item hitem) (by simpa using hnone item hitem) o.inMacro).2
  rw [hopen] at hclosed
  cases hclosed

/-- If a failure is among the items that an open output takes, it takes one. -/
theorem fails_pushAll {o : Output} (ho : o.closed = false) {items : List Item}
    (hitems : ∀ item ∈ items, item.token.isInert = true) (hfails : ∃ item ∈ items, item.token.fails = true) :
    ∃ item ∈ (o.pushAll items).items, item.token.fails = true := by
  induction items generalizing o with
  | nil =>
    obtain ⟨item, hitem, -⟩ := hfails
    exact absurd hitem List.not_mem_nil
  | cons item rest ih =>
    rw [List.forall_mem_cons] at hitems
    rw [pushAll, List.foldl_cons]
    cases hitem : item.token.fails with
    | false =>
      have hopen : (o.push item).closed = false := by
        rw [push, ho]
        exact Token.isTerminal_of_isInert hitems.1 hitem o.inMacro
      refine ih hopen hitems.2 ?_
      obtain ⟨other, hother, hfails⟩ := hfails
      rcases List.mem_cons.1 hother with rfl | hother
      · rw [hitem] at hfails
        cases hfails
      · exact ⟨other, hother, hfails⟩
    | true =>
      -- what an output has it keeps
      have hkept : ∀ (rest : List Item) (o : Output), item ∈ o.items → item ∈ (o.pushAll rest).items := by
        intro rest
        induction rest with
        | nil => exact fun o h => h
        | cons i rest ih =>
          intro o h
          refine ih (o.push i) ?_
          rw [push]
          split
          · exact h
          · rw [items, List.reverse_cons]
            exact List.mem_append_left _ h
      refine ⟨item, hkept rest _ ?_, hitem⟩
      rw [items_push_of_open ho]
      exact List.mem_append_right _ (List.mem_singleton.2 rfl)

end Output

namespace Entry

/-- Data binds nothing. -/
theorem EntersAll.eq_of_isData {u : Surroundings} {radix : Nat} {b b' : Text → Binding} {source : List Token}
    {items : List Item} (hsource : ∀ t ∈ source, t.isData = true) (h : EntersAll u radix b source items b') :
    b' = b := by
  induction h with
  | nil => rfl
  | cons hfirst _ ih =>
    rw [List.forall_mem_cons] at hsource
    rw [ih hsource.2]
    cases hfirst with
    | equate => cases hsource.1
    | data => rfl

end Entry

open Entry (EntersAll Completes)

/-- A runner that assembles data over what names stand for: the names stand for the same afterwards, and a
failure is reported or the data is entered and completed. The block may bind names of its own. -/
def Runner.AssemblesData (run : Runner) : Prop :=
  ∀ (block : Block) (body : List Token) (s : State) (own : Text → Option Expr) (o : Scope) (b : Text → Binding),
    (∀ t ∈ body, t.isData = true) → s.scope.Shows own o → Scope.shadow own o.binding = b →
    (b Scope.radixName).isSet = true →
    ((run block body).run s).2.scope.Shows own o ∧ (∀ t ∈ ((run block body).run s).1, t.isInert = true) ∧
      ((∃ t ∈ ((run block body).run s).1, t.fails = true) ∨ ∃ (items : List Item) (tss : List (List Token)),
        EntersAll block.around (b Scope.radixName).radix b body items b ∧
        List.Forall₂ (Completes block.around (b Scope.radixName).radix b) items tss ∧
        ((run block body).run s).1 = tss.flatten)

/-- Nested blocks of data are assembled so. -/
theorem Assembler.assemblesData_runner {a : Assembler} {depth : Nat} {run : Runner}
    (h : a.runner depth = some run) : run.AssemblesData := by
  cases depth with
  | zero => cases h
  | succ depth =>
    rw [runner_succ, Option.some.injEq] at h
    subst h
    intro block body s own o b hbody hs hb hradix
    have hinert : ∀ t ∈ body, t.isInert = true := by
      intro t ht
      have hdata := hbody t ht
      cases t with
      | data => rfl
      | _ => cases hdata
    have hstart : ({ s with bankSwitched := false } : State).scope.binding = b := hs.binding.trans hb
    obtain ⟨hkeeps, hitems⟩ := Workbench.run_inert ⟨a, block, a.runner depth⟩ hinert { s with bankSwitched := false }
    have hcases := Entry.run_cases ⟨a, block, a.runner depth⟩ (s := { s with bankSwitched := false })
      (fun t ht => Or.inr (hbody t ht)) (by rw [hstart]; exact hradix)
    rw [hstart, Scope.radix_eq, hstart] at hcases
    rcases hr : (Workbench.run ⟨a, block, a.runner depth⟩ body).run { s with bankSwitched := false } with ⟨t, s'⟩
    rw [hr] at hkeeps hitems hcases
    rw [run_shield hr]
    refine ⟨hkeeps own o hs, ?_, hcases.imp ?_ ?_⟩
    · intro t ht
      obtain ⟨item, hitem, rfl⟩ := List.mem_map.1 ht
      exact hitems item hitem
    · rintro ⟨item, hitem, hfails⟩
      exact ⟨item.token, List.mem_map_of_mem hitem, hfails⟩
    · rintro ⟨b', dom, items, tss, -, henters, hcompletes, htokens⟩
      obtain rfl := henters.eq_of_isData hbody
      exact ⟨items, tss, henters, hcompletes, htokens⟩

namespace Replay

variable {w : Workbench} {run : Runner} {b : Text → Binding} {body : List Token}

/-- What a turn over data emits: what a block of data writes, and then the account of its names. -/
def Written (args : List Expr) (b : Text → Binding) (body : List Token) (items : List Item) : Prop :=
  ∃ (unit : Text) (entered : List Item) (tss : List (List Token)) (reports : List Token),
    EntersAll ⟨unit, args⟩ (b Scope.radixName).radix b body entered b ∧
    List.Forall₂ (Completes ⟨unit, args⟩ (b Scope.radixName).radix b) entered tss ∧
    items = tss.flatten.map .spliced ++ reports.map .settled ∧ ∀ t ∈ reports, t.isMessage = true

/-- Of diagnostics nothing is left without diagnostics. -/
theorem filter_settled_of_isMessage {reports : List Token} (h : ∀ t ∈ reports, t.isMessage = true) :
    (reports.map Item.settled).filter (fun i => !i.token.isMessage) = [] := by
  refine List.filter_eq_nil_iff.2 fun i hi => ?_
  obtain ⟨t, ht, rfl⟩ := List.mem_map.1 hi
  rw [Item.settled, h t ht]
  exact Bool.false_ne_true

/-- Without diagnostics, a turn emits what its block wrote. -/
theorem filter_written {ts reports : List Token} (h : ∀ t ∈ reports, t.isMessage = true) :
    (ts.map Item.spliced ++ reports.map Item.settled).filter (fun i => !i.token.isMessage) =
      (Token.products ts).map .spliced := by
  rw [List.filter_append, filter_settled_of_isMessage h, List.append_nil, List.filter_map, Token.products]
  rfl

/-- What a handling over data emits: names stand for `b` before and after it, and `P` holds of the items unless
one of them is a failure. -/
def Replays (b : Text → Binding) (e : Emission PUnit) (P : List Item → Prop) : Prop :=
  ∀ (out : Output) (s : State), out.closed = false → s.scope.binding = b →
    ∃ (items : List Item) (s' : State), e.exec (out, s) = (.ok ⟨⟩, (out.pushAll items, s')) ∧
      s'.scope.binding = b ∧ (∀ item ∈ items, item.token.isInert = true) ∧
      ((∃ item ∈ items, item.token.fails = true) ∨ P items)

/-- What a handling over data emits from a state on. -/
def ReplaysFrom (s : State) (e : Emission PUnit) (P : List Item → Prop) : Prop :=
  ∀ out : Output, out.closed = false →
    ∃ (items : List Item) (s' : State), e.exec (out, s) = (.ok ⟨⟩, (out.pushAll items, s')) ∧
      s'.scope.binding = s.scope.binding ∧ (∀ item ∈ items, item.token.isInert = true) ∧
      ((∃ item ∈ items, item.token.fails = true) ∨ P items)

/-- What is emitted from every state in which names stand for `b` is emitted from one of them. -/
theorem Replays.replaysFrom {e : Emission PUnit} {P : List Item → Prop} (h : Replays b e P) {s : State}
    (hs : s.scope.binding = b) : ReplaysFrom s e P := by
  intro out hout
  rw [hs]
  exact h out s hout hs

/-- A nested block of data, which may bind names of its own. -/
theorem replays_expand (hdata : run.AssemblesData) (hbody : ∀ t ∈ body, t.isData = true)
    {own : Text → Option Expr} {scope : Scope} {out : Output} {s : State}
    (hb : Scope.shadow own s.scope.binding = b)
    (hradix : (b Scope.radixName).isSet = true) (hscope : scope.Shows own s.scope) (args : List Expr) (unit : Text)
    (inMacro nested macroCall : Bool) (hout : out.closed = false) :
    ∃ (items : List Item) (s' : State),
      (Expand.expand run ⟨⟨unit, args⟩, inMacro, nested⟩ scope body macroCall).exec (out, s) =
        (.ok ⟨⟩, (out.pushAll items, s')) ∧
      s'.scope.binding = s.scope.binding ∧ (∀ item ∈ items, item.token.isInert = true) ∧
      ((∃ item ∈ items, item.token.fails = true) ∨ Written args b body items) := by
  obtain ⟨hran, hinert, hresult⟩ := hdata ⟨⟨unit, args⟩, inMacro, nested⟩ body { s with scope } own s.scope b hbody
    hscope hb hradix
  generalize hr : (run ⟨⟨unit, args⟩, inMacro, nested⟩ body).run { s with scope } = r
    at hran hinert hresult
  -- nothing of it is dropped
  have hall : (r.1.filter fun t => !Expand.isDropped macroCall t) = r.1 := by
    refine List.filter_eq_self.2 fun t ht => ?_
    have ht := hinert t ht
    cases t with
    | data | bytes | message => rfl
    | _ => cases ht
  have hspliced : ∀ item ∈ r.1.map Item.spliced, item.token.isInert = true := by
    intro item hitem
    obtain ⟨t, ht, rfl⟩ := List.mem_map.1 hitem
    exact hinert t ht
  have hfailed : (∃ t ∈ r.1, t.fails = true) → ∃ item ∈ r.1.map Item.spliced, item.token.fails = true := by
    rintro ⟨t, ht, hfails⟩
    exact ⟨.spliced t, List.mem_map_of_mem ht, hfails⟩
  rw [Expand.exec_expand run _ _ body macroCall (out, s) hr rfl, hall]
  split
  · -- only a failure closes the output before the names are accounted for
    rename_i hclosed
    exact ⟨_, _, rfl, hran.around.binding_eq, hspliced, Or.inl (Output.fails_of_closed_pushAll hout hspliced hclosed)⟩
  · have hreports : ∀ t ∈ (r.2.scope.account nested).2, t.isMessage = true :=
      fun t ht => (Scope.mem_accountFor ht).1
    refine ⟨r.1.map .spliced ++ (r.2.scope.account nested).2.map .settled,
      { r.2 with scope := (r.2.scope.account nested).1.unnest }, ?_, (hran.account nested).around.binding_eq, ?_, ?_⟩
    · rw [Output.pushAll_append]
      rfl
    · intro item hitem
      rcases List.mem_append.1 hitem with hitem | hitem
      · exact hspliced item hitem
      · obtain ⟨t, ht, rfl⟩ := List.mem_map.1 hitem
        have hmessage := hreports t ht
        cases t with
        | message d => rfl
        | _ => cases hmessage
    · refine hresult.imp (fun h => ?_) ?_
      · obtain ⟨item, hitem, hfails⟩ := hfailed h
        exact ⟨item, List.mem_append_left _ hitem, hfails⟩
      · rintro ⟨entered, tss, henters, hcompletes, htokens⟩
        refine ⟨unit, entered, tss, (r.2.scope.account nested).2, henters, hcompletes, ?_, hreports⟩
        rw [htokens]

/-- A nested block of data that binds nothing of its own. -/
theorem replays_nest (hdata : run.AssemblesData) (hbody : ∀ t ∈ body, t.isData = true)
    (hradix : (b Scope.radixName).isSet = true) (args : List Expr) (unit : Text) (inMacro nested macroCall : Bool)
    {out : Output} {s : State} (hout : out.closed = false) (hs : s.scope.binding = b) :
    ∃ (items : List Item) (s' : State),
      (Expand.expand run ⟨⟨unit, args⟩, inMacro, nested⟩ s.scope.nest body macroCall).exec (out, s) =
        (.ok ⟨⟩, (out.pushAll items, s')) ∧
      s'.scope.binding = b ∧ (∀ item ∈ items, item.token.isInert = true) ∧
      ((∃ item ∈ items, item.token.fails = true) ∨ Written args b body items) := by
  subst hs
  have hb : Scope.shadow (fun _ => none) s.scope.binding = s.scope.binding := rfl
  exact replays_expand hdata hbody hb hradix s.scope.shows_nest args unit inMacro nested macroCall hout

/-- A turn over data. -/
theorem replays_turn (hrun : w.runner = some run) (hdata : run.AssemblesData)
    (hbody : ∀ t ∈ body, t.isData = true) (hradix : (b Scope.radixName).isSet = true) (loc : Location) (k : Nat) :
    Replays b (Loop.turn w ⟨loc, Text.empty, Text.empty, body⟩ k none) (Written w.around.args b body) := by
  intro out s hout hs
  have hexec : (Loop.turn w ⟨loc, Text.empty, Text.empty, body⟩ k none).exec (out, s) =
      (Expand.expand run ⟨⟨w.assembler.naming.name s.supply, w.around.args⟩, w.block.inMacro, true⟩ s.scope.nest body
        false).exec (out, { s with supply := s.supply + 1 }) := by
    rw [Loop.turn, Workbench.requireRunner, hrun]
    rfl
  rw [hexec]
  exact replays_nest hdata hbody hradix _ _ _ _ _ hout hs

/-- Turns over data. -/
theorem replays_times {turn : Nat → Emission PUnit} {P : List Item → Prop} (hturn : ∀ k, Replays b (turn k) P)
    (n k : Nat) : Replays b (times turn n k) fun items =>
      ∃ turns : List (List Item), turns.length = n ∧ items = turns.flatten ∧ ∀ turn ∈ turns, P turn := by
  induction n generalizing k with
  | zero =>
    intro out s _ hs
    exact ⟨[], s, rfl, hs, fun item hitem => absurd hitem List.not_mem_nil, Or.inr ⟨[], rfl, rfl,
      fun turn hturn => absurd hturn List.not_mem_nil⟩⟩
  | succ n ih =>
    intro out s hout hs
    obtain ⟨items, s1, hexec, hs1, hinert, hfirst⟩ := hturn k out s hout hs
    have hbegin : (times turn (n + 1) k).exec (out, s) = (times turn n (k + 1)).exec (out.pushAll items, s1) := by
      rw [times, Emission.exec_bind_of_ok (Emission.exec_isClosed _), hout, if_neg Bool.false_ne_true,
        Emission.exec_bind_of_ok hexec]
    rw [hbegin]
    cases hclosed : (out.pushAll items).closed with
    | true =>
      -- the output was closed by a failure, and no turn follows
      have hend : (times turn n (k + 1)).exec (out.pushAll items, s1) = (.ok ⟨⟩, (out.pushAll items, s1)) := by
        cases n with
        | zero => rfl
        | succ n =>
          rw [times, Emission.exec_bind_of_ok (Emission.exec_isClosed _), hclosed, if_pos rfl]
          rfl
      exact ⟨items, s1, hend, hs1, hinert, Or.inl (Output.fails_of_closed_pushAll hout hinert hclosed)⟩
    | false =>
      obtain ⟨items', s2, hexec', hs2, hinert', hrest⟩ := ih (k + 1) (out.pushAll items) s1 hclosed hs1
      refine ⟨items ++ items', s2, by rw [hexec', Output.pushAll_append], hs2, ?_, ?_⟩
      · intro item hitem
        exact (List.mem_append.1 hitem).elim (hinert item) (hinert' item)
      · rcases hfirst with ⟨item, hitem, hfails⟩ | hfirst
        · exact Or.inl ⟨item, List.mem_append_left _ hitem, hfails⟩
        · rcases hrest with ⟨item, hitem, hfails⟩ | ⟨turns, hlength, rfl, hall⟩
          · exact Or.inl ⟨item, List.mem_append_right _ hitem, hfails⟩
          · exact Or.inr ⟨items :: turns, by rw [List.length_cons, hlength], rfl,
              List.forall_mem_cons.2 ⟨hfirst, hall⟩⟩

/-- What the turns of a DUP over data emit. -/
def WrittenTimes (args : List Expr) (b : Text → Binding) (body : List Token) (n : Nat) (items : List Item) :
    Prop :=
  ∃ turns : List (List Item), turns.length = n ∧ items = turns.flatten ∧ ∀ turn ∈ turns, Written args b body turn

/-- A DUP over data whose count is known. -/
theorem replays_dup (hrun : w.runner = some run) (hdata : run.AssemblesData) (hbody : ∀ t ∈ body, t.isData = true)
    (hradix : (b Scope.radixName).isSet = true) (strict : Bool) (item : Item) (loc l : Location) (c : Int64)
    (via : Text) :
    Replays b (dup w strict item loc none (.count (.number l c via)) body)
      (WrittenTimes w.around.args b body c.toInt.toNat) := by
  have hdup : dup w strict item loc none (.count (.number l c via)) body =
      times (fun k => Loop.turn w ⟨loc, Text.empty, Text.empty, body⟩ k none) c.toInt.toNat 0 := rfl
  rw [hdup]
  exact replays_times (fun k => replays_turn hrun hdata hbody hradix loc k) _ 0

end Replay

end MacroAsm
