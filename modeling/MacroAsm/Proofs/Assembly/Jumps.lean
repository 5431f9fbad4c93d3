import MacroAsm.Proofs.Assembly.Carriage
import MacroAsm.Proofs.Assembly.Conducting
import MacroAsm.Proofs.Assembly.Encoding

/-!
# Jumps after a bank switch

The step that selects jumps turns relative jumps to labels into branches, apart from the one that a bank switch is
for. To tell what stands in front of a jump there, `Stage.passage` runs the same steps as `Stage.through` and notes
each item that arrives at a step, with what the steps from there on make of it (`Stage.Notes`).

The mark of a bank switch is then a fold over what arrived (`Workbench.Follows`): no step in front touches it, nested
blocks put it back, and the selection of jumps sets it as `Finish.mark` tells. So a jump is encoded from the table if a
bank switch was the last thing that arrived in its block, diagnostics apart, and becomes a branch otherwise.
-/

namespace MacroAsm

namespace Trail

/-- A trail that goes on with another one. -/
def append (t u : Trail) : Trail := ⟨u.reversed ++ t.reversed, t.stopped || u.stopped⟩

@[simp]
theorem append_empty (t : Trail) : t.append empty = t := by
  cases t
  simp [append, empty]

theorem append_assoc (t u v : Trail) : (t.append u).append v = t.append (u.append v) := by
  simp [append, Bool.or_assoc]

@[simp]
theorem empty_append (t : Trail) : empty.append t = t := by
  cases t
  simp [append, empty]

end Trail

/-- An item that arrived at a step, and what the steps from there on made of it. -/
structure Arrival where
  /-- The item. -/
  item : Item
  /-- What became of it. -/
  trail : Trail
deriving Inhabited

/-- What arrived at a step. -/
structure Passage where
  /-- The items that arrived. -/
  arrivals : List Arrival
  /-- Whether a terminal token ended the stage. -/
  stopped : Bool
deriving Inhabited

namespace Passage

/-- What arrived first, and then more. -/
def append (p q : Passage) : Passage := ⟨p.arrivals ++ q.arrivals, p.stopped || q.stopped⟩

/-- What became of everything that arrived. -/
def trail (p : Passage) : Trail := ⟨(p.arrivals.flatMap fun a => a.trail.batches).reverse, p.stopped⟩

theorem trail_append (p q : Passage) : (p.append q).trail = p.trail.append q.trail := by
  simp [trail, append, Trail.append]

theorem trail_single (item : Item) (t : Trail) : trail ⟨[⟨item, t⟩], t.stopped⟩ = t := by
  simp [trail, Trail.batches]

/-- An instruction of a name arrived after some tokens, and became some tokens. -/
def Calls (p : Passage) (front : List Token) (d : Dispatch) (name : Text) (became : List Token) : Prop :=
  ∃ (before : List Arrival) (a : Arrival) (later : List Arrival) (loc : Location),
    p.arrivals = before ++ a :: later ∧ (before.map fun z => z.item.token) = front ∧
      a.item.token = .dispatch d ∧ d.callee = .identifier loc name ∧ a.trail.tokens = became

/-- An instruction of a name among the tokens that arrived became something. -/
theorem exists_calls {p : Passage} {front later : List Token} {d : Dispatch}
    (h : (p.arrivals.map fun a => a.item.token) = front ++ .dispatch d :: later) {loc : Location} {name : Text}
    (hname : d.callee = .identifier loc name) : ∃ became, p.Calls front d name became := by
  obtain ⟨before, rest, hsplit, hfront, hrest⟩ := List.map_eq_append_iff.1 h
  obtain ⟨a, later', rfl, hd, -⟩ := List.map_eq_cons_iff.1 hrest
  exact ⟨_, before, a, later', loc, hsplit, hfront, hd, hname, rfl⟩

end Passage

namespace Stage

/-- Notes what arrives of the items of a list, until the stage is stopped. -/
def survey (f : Item → StateM State Passage) : List Item → StateM State Passage
  | [] => return ⟨[], false⟩
  | item :: rest => do
    let first ← f item
    if first.stopped then return first else return first.append (← survey f rest)

/-- Takes an item through the steps of a list, and notes what arrives behind them and what `f` makes of it. -/
def passage (inMacro : Bool) (f : Item → Trail → StateM State Trail) : List Pass → Item → StateM State Passage
  | [], item => do
    let t ← f item Trail.empty
    return ⟨[⟨item, t⟩], t.stopped⟩
  | p :: passes, item => do
    let out ← p.handle inMacro item
    let arrived ← survey (passage inMacro f passes) out.items
    return { arrived with stopped := arrived.stopped || out.closed }

/-- To note what arrives makes no difference to what becomes of it, nor to the state. -/
def Notes (f : Item → Trail → StateM State Trail) (g : Item → StateM State Passage) : Prop :=
  ∀ item t s, t.stopped = false →
    (f item t).run s = (t.append ((g item).run s).1.trail, ((g item).run s).2)

variable {inMacro : Bool} {f : Item → Trail → StateM State Trail} {g : Item → StateM State Passage} {s s' : State}

/-- What arrives of a first item, and then of the others. -/
theorem run_survey_cons {item : Item} {p : Passage} (h : (g item).run s = (p, s')) (hp : p.stopped = false)
    (rest : List Item) : (survey g (item :: rest)).run s =
      (p.append ((survey g rest).run s').1, ((survey g rest).run s').2) := by
  rw [survey, StateM.run_bind, h]
  dsimp only
  rw [hp, if_neg Bool.false_ne_true]
  rfl

/-- A stage that is stopped goes no further. -/
theorem run_survey_of_stopped {item : Item} {p : Passage} (h : (g item).run s = (p, s')) (hp : p.stopped = true)
    (rest : List Item) : (survey g (item :: rest)).run s = (p, s') := by
  rw [survey, StateM.run_bind, h]
  dsimp only
  rw [hp, if_pos rfl]
  rfl

/-- What a step emits arrives behind the steps that follow. -/
theorem run_passage_cons {p : Pass} {passes : List Pass} {item : Item} {out : Output}
    (h : (p.handle inMacro item).run s = (out, s')) : (passage inMacro f (p :: passes) item).run s =
      ({ ((survey (passage inMacro f passes) out.items).run s').1 with
          stopped := ((survey (passage inMacro f passes) out.items).run s').1.stopped || out.closed },
        ((survey (passage inMacro f passes) out.items).run s').2) := by
  rw [passage, StateM.run_bind, h]
  rfl

/-- The items of a list, one after the other. -/
theorem Notes.feed (h : Notes f g) (items : List Item) {t : Trail} (ht : t.stopped = false) (s : State) :
    (Stage.feed f items t).run s = (t.append ((survey g items).run s).1.trail, ((survey g items).run s).2) := by
  induction items generalizing t s with
  | nil => exact Prod.ext t.append_empty.symm rfl
  | cons item rest ih =>
    -- the trail is generalized: the others go on from what the first item has put on it
    rcases hrun : (g item).run s with ⟨p, s1⟩
    have hfirst := h item t s ht
    rw [hrun] at hfirst
    rw [run_feed_cons ht hfirst]
    cases hp : p.stopped with
    | true =>
      rw [run_survey_of_stopped hrun hp, run_feed_of_stopped (by rw [Trail.append, ht]; exact hp)]
    | false =>
      rw [run_survey_cons hrun hp, ih (by rw [Trail.append, ht]; exact hp), Trail.append_assoc, Passage.trail_append]

/-- More steps in front. -/
theorem Notes.through {last : Pass} {behind : List Pass}
    (h : Notes (Stage.through inMacro last behind) (passage inMacro (Stage.through inMacro last behind) []))
    (passes : List Pass) : Notes (Stage.through inMacro last (passes ++ behind))
      (passage inMacro (Stage.through inMacro last behind) passes) := by
  induction passes with
  | nil => exact h
  | cons p passes ih =>
    intro item t s ht
    rcases hout : (p.handle inMacro item).run s with ⟨out, s1⟩
    rw [List.cons_append, run_through_cons hout, run_passage_cons hout, ih.feed out.items ht s1]
    simp only [Trail.append, Passage.trail, Bool.or_assoc]

/-- Whatever the steps of a stage are, what they make of an item is put behind what there was. -/
theorem notes_through (inMacro : Bool) (last : Pass) (passes behind : List Pass) :
    Notes (Stage.through inMacro last (passes ++ behind))
      (passage inMacro (Stage.through inMacro last behind) passes) := by
  have hlast : Notes (Stage.through inMacro last []) (passage inMacro (Stage.through inMacro last []) []) := by
    intro item t s _
    rcases hout : (last.handle inMacro item).run s with ⟨out, s1⟩
    rw [passage, StateM.run_bind, run_through_last hout, run_through_last hout, StateM.run_pure, Passage.trail_single]
    rfl
  -- an item is noted with what becomes of it from an empty trail, so what stands behind must only add to a trail
  have hbehind := hlast.through behind
  rw [List.append_nil] at hbehind
  refine Notes.through (fun item t s ht => ?_) passes
  rw [passage, StateM.run_bind, StateM.run_pure, hbehind item t s ht, hbehind item Trail.empty s rfl,
    Trail.empty_append, Passage.trail_single]

end Stage

/-- The tokens of the encoding of an instruction at `loc`, or the diagnostic why there are none. -/
def Encode.outcome (loc : Location) : Except Diagnostic (List Token) → List Token
  | .ok ts => ts
  | .error d => [.message (d.locate loc)]

/-- No instruction is encoded as a terminal token. -/
theorem Encode.not_isTerminal_of_instruction {table : InstructionSet} {mnemonic : Text} {d : Dispatch} {ts : List Token}
    (h : instruction table mnemonic d = .ok ts) {t : Token} (ht : t ∈ ts) (inMacro : Bool) :
    t.isTerminal inMacro = false := by
  rcases instruction_cases h ht with ⟨_, _, rfl⟩ | ⟨_, _, rfl⟩ | ⟨_, _, _, _, _, rfl, -⟩ <;> rfl

namespace Token

/-- Whether a token is the switch of a bank. -/
def isBankSwitch : Token → Bool
  | .dispatch d =>
    match d.callee with
    | .identifier _ name => Finish.isBankSwitch name.upper d.operands
    | _ => false
  | _ => false

/-- Whether a token is a branch that is left to the linker. -/
def isBranch : Token → Bool
  | .branch _ => true
  | _ => false

/-- Whether a token leaves the mark of a bank switch as it is: diagnostics, and calls of what is no name. -/
def isOverlooked : Token → Bool
  | .message _ => true
  | .dispatch d =>
    match d.callee with
    | .identifier _ _ => false
    | _ => true
  | _ => false

end Token

/-- No instruction is encoded as a branch. -/
theorem Encode.isBranch_of_mem_outcome {table : InstructionSet} {mnemonic : Text} {d : Dispatch} {t : Token}
    (ht : t ∈ outcome d.loc (instruction table mnemonic d)) : t.isBranch = false := by
  cases h : instruction table mnemonic d with
  | error _ =>
    rw [h, outcome, List.mem_singleton] at ht
    rw [ht]
    rfl
  | ok ts =>
    rw [h] at ht
    rcases instruction_cases h ht with ⟨_, _, rfl⟩ | ⟨_, _, rfl⟩ | ⟨_, _, _, _, _, rfl, -⟩ <;> rfl

namespace Finish

/-- The mark of a bank switch after a token arrived at the selection of jumps. -/
def mark (bankSwitched : Bool) : Token → Bool
  | .message _ => bankSwitched
  | .dispatch d => (relaxDispatch bankSwitched d).2
  | _ => false

/-- A token that is not overlooked sets the mark if it is a bank switch, and takes it away otherwise. -/
theorem mark_eq (bankSwitched : Bool) (t : Token) :
    mark bankSwitched t = if t.isOverlooked then bankSwitched else t.isBankSwitch := by
  cases t with
  | dispatch d =>
    obtain ⟨loc, callee, operands⟩ := d
    cases callee with
    | identifier _ name =>
      simp only [mark, relaxDispatch, Token.isOverlooked, Token.isBankSwitch]
      cases isBankSwitch name.upper operands <;> cases bankSwitched <;> rfl
    | _ => rfl
  | _ => rfl

/-- Whether the last of some tokens that is not overlooked is a bank switch. -/
def afterSwitch (ts : List Token) : Bool :=
  (ts.filter fun t => !t.isOverlooked).getLast?.any Token.isBankSwitch

/-- The mark after some tokens, if there was none before. -/
theorem foldl_mark (ts : List Token) : ts.foldl mark false = afterSwitch ts := by
  -- from the end, as the last token that is not overlooked decides
  induction ts using List.reverseRecOn with
  | nil => rfl
  | append_singleton ts t ih =>
    rw [List.foldl_append, List.foldl_cons, List.foldl_nil, ih, mark_eq, afterSwitch, afterSwitch, List.filter_append]
    cases h : t.isOverlooked <;> simp [h]

/-- Diagnostics leave the mark as it is. -/
theorem foldl_mark_of_messages {ts : List Token} (h : ∀ t ∈ ts, t.isMessage = true) (m : Bool) :
    ts.foldl mark m = m := by
  induction ts with
  | nil => rfl
  | cons t rest ih =>
    rw [List.forall_mem_cons] at h
    cases t with
    | message d => exact ih h.2
    | _ => cases h.1

/-- A bank switch leaves the mark behind, diagnostics apart. -/
theorem foldl_mark_of_switch (front : List Token) {t : Token} (ht : t.isBankSwitch = true) {between : List Token}
    (h : ∀ t ∈ between, t.isMessage = true) (m : Bool) : (front ++ t :: between).foldl mark m = true := by
  have hseen : t.isOverlooked = false := by
    cases t with
    | dispatch d =>
      obtain ⟨loc, callee, operands⟩ := d
      cases callee with
      | identifier _ name => rfl
      | _ => cases ht
    | _ => cases ht
  rw [List.foldl_append, List.foldl_cons, foldl_mark_of_messages h, mark_eq, hseen, ht]
  rfl

end Finish

namespace Workbench

variable {w : Workbench} {t : Trail} {s : State}

/-- The selection of jumps, and what follows it. -/
def select (w : Workbench) : Item → Trail → StateM State Trail :=
  Stage.through w.block.inMacro (.ofToken (Finish.complete w)) [.ofToken Finish.relax, .ofToken (Finish.encode w)]

/-- The steps of the third stage in front of the selection of jumps. -/
def ahead (w : Workbench) : List Pass := [.reduceAgain w, .localize w, .expandRest w]

/-- Assembles the statements of the block, and notes what arrives at the selection of jumps. -/
def passage (w : Workbench) (source : List Token) : StateM State Passage := do
  let declared ← w.declareStage source
  let bound ← w.bindStage declared.items
  Stage.survey (Stage.passage w.block.inMacro w.select w.ahead) (Stage.messagesFirst bound.items)

/-- What becomes of everything that arrives is what assembling the block gives. -/
theorem run_eq_passage (w : Workbench) (source : List Token) (s : State) :
    (w.run source).run s = (((w.passage source).run s).1.trail, ((w.passage source).run s).2) := by
  have hnotes := Stage.notes_through w.block.inMacro (.ofToken (Finish.complete w)) w.ahead
    [.ofToken Finish.relax, .ofToken (Finish.encode w)]
  have hfeed := fun items s => hnotes.feed items (t := Trail.empty) rfl s
  simp only [Trail.empty_append] at hfeed
  rw [run, passage, StateM.run_bind, StateM.run_bind, StateM.run_bind, StateM.run_bind]
  exact hfeed _ _

/-- The tokens that an instruction of a name becomes. -/
def made (w : Workbench) (bankSwitched : Bool) (name : Text) (d : Dispatch) : List Token :=
  match (Finish.relaxDispatch bankSwitched d).1 with
  | .branch b => [.branch b]
  | _ => Encode.outcome d.loc (Encode.instruction w.assembler.table name d)

/-- A mark keeps an instruction from becoming a branch. -/
theorem made_of_marked (w : Workbench) (name : Text) (d : Dispatch) :
    w.made true name d = Encode.outcome d.loc (Encode.instruction w.assembler.table name d) := by
  have hrelax : (Finish.relaxDispatch true d).1 = .dispatch d := by
    rw [Finish.relaxDispatch.eq_def]
    split
    · dsimp only
      split <;> rfl
    · rfl
  rw [made, hrelax]

/-- A relative jump to a label becomes a branch if there is no mark. -/
theorem made_of_branch? (w : Workbench) {d : Dispatch} {loc : Location} {name : Text}
    (hname : d.callee = .identifier loc name) {jump : Branch} (hjump : Finish.branch? d name.upper = some jump) :
    w.made false name d = [.branch jump] := by
  -- a bank switch is no jump
  have hswitch : Finish.isBankSwitch name.upper d.operands = false := by
    cases h : Finish.isBankSwitch name.upper d.operands with
    | false => rfl
    | true =>
      rw [Finish.isBankSwitch.eq_def] at h
      split at h
      · rw [Bool.and_eq_true, beq_iff_eq] at h
        rw [h.1] at hjump
        cases hjump
      · cases h
  have hrelax : (Finish.relaxDispatch false d).1 = .branch jump := by
    rw [Finish.relaxDispatch, hname]
    dsimp only
    rw [hswitch, if_neg Bool.false_ne_true, if_neg Bool.false_ne_true, hjump]
    rfl
  rw [made, hrelax]

/-- What the last step of a block passes on as it is. -/
theorem run_complete_instruction {table : InstructionSet} {mnemonic : Text} {d : Dispatch} {ts : List Token}
    (h : Encode.instruction table mnemonic d = .ok ts) {i : Token} (hi : i ∈ ts) (t : Trail) (s : State) :
    (Stage.through w.block.inMacro (.ofToken (Finish.complete w)) [] (.settled i) t).run s =
      (t.add ⟨[.settled i], false, s⟩, s) := by
  have hrun : ((Pass.ofToken (Finish.complete w)).handle w.block.inMacro (.settled i)).run s =
      ((Output.empty w.block.inMacro).push (.settled i), s) := by
    rcases Encode.instruction_cases h hi with ⟨_, _, rfl⟩ | ⟨_, _, rfl⟩ | ⟨_, _, _, _, _, rfl, -⟩
    · exact Pass.run_handle_message rfl
    · exact Pass.run_handle_of_ok rfl rfl
    · exact Pass.run_handle_of_ok rfl rfl
  have hopen : (Item.settled i).token.isTerminal w.block.inMacro = false := Encode.not_isTerminal_of_instruction h hi _
  rw [Stage.run_through_last hrun, Output.items_push_empty, Output.closed_push_empty, hopen]

/-- An instruction of a name is encoded from the table. -/
theorem tokens_encode {d : Dispatch} {loc : Location} {name : Text} (hname : d.callee = .identifier loc name)
    (ht : t.stopped = false) (s : State) :
    ((Stage.through w.block.inMacro (.ofToken (Finish.complete w)) [.ofToken (Finish.encode w)]
        (.settled (.dispatch d)) t).run s).1.tokens =
      t.tokens ++ Encode.outcome d.loc (Encode.instruction w.assembler.table name d) := by
  have hnext : (Pass.ofToken (Finish.encode w) (.settled (.dispatch d))).exec (Output.empty w.block.inMacro, s) =
      (Finish.encoded (Encode.instruction w.assembler.table name d)).exec (Output.empty w.block.inMacro, s) := by
    refine Emission.exec_bind_of_ok (Emission.exec_monadLift_of_ok ?_ _)
    rw [hname]
    exact Bind.exec_nameOf_identifier w.around loc name s
  cases h : Encode.instruction w.assembler.table name d with
  | error d' =>
    rw [h] at hnext
    have hexec : (Finish.encoded (Except.error d')).exec (Output.empty w.block.inMacro, s) =
        (.error (.report d'), (Output.empty w.block.inMacro, s)) := rfl
    rw [Stage.run_through_report ht (Pass.run_handle_of_error rfl (hnext.trans hexec)), Trail.tokens,
      Trail.items_add, List.map_append]
    rfl
  | ok ts =>
    rw [h] at hnext
    -- none of its tokens is terminal, so each of them reaches the last step, which passes it on alone
    have hopen : ∀ i ∈ ts.map Item.settled, i.token.isTerminal w.block.inMacro = false := by
      intro i hi
      obtain ⟨t, ht, rfl⟩ := List.mem_map.1 hi
      exact Encode.not_isTerminal_of_instruction h ht _
    obtain ⟨hitems, -⟩ := Output.items_pushAll (o := Output.empty w.block.inMacro) rfl hopen
    have hfeed : ∀ i ∈ ts.map Item.settled, ∀ t : Trail, t.stopped = false →
        (Stage.through w.block.inMacro (.ofToken (Finish.complete w)) [] i t).run s = (t.add ⟨[i], false, s⟩, s) := by
      intro i hi t _
      obtain ⟨token, htoken, rfl⟩ := List.mem_map.1 hi
      exact run_complete_instruction h htoken t s
    have hexec : (Finish.encoded (Except.ok ts)).exec (Output.empty w.block.inMacro, s) =
        (.ok ⟨⟩, ((Output.empty w.block.inMacro).pushAll (ts.map .settled), s)) := rfl
    rw [Stage.run_through_cons (Pass.run_handle_of_ok rfl (hnext.trans hexec)), hitems]
    refine (congrArg (List.map Item.token) (Stage.run_feed_of_forall hfeed ht).1).trans ?_
    rw [List.map_append, Item.map_token_settled]
    rfl

/-- An instruction of a name becomes what the mark in front of it tells. -/
theorem tokens_select {item : Item} {d : Dispatch} (hitem : item.token = .dispatch d) {loc : Location} {name : Text}
    (hname : d.callee = .identifier loc name) (s : State) :
    ((w.select item Trail.empty).run s).1.tokens = w.made s.bankSwitched name d := by
  obtain ⟨token, pending⟩ := item
  cases hitem
  have hrelax : ((Pass.ofToken Finish.relax).handle w.block.inMacro ⟨.dispatch d, pending⟩).run s =
      ((Output.empty w.block.inMacro).push (.settled (Finish.relaxDispatch s.bankSwitched d).1),
        { s with bankSwitched := (Finish.relaxDispatch s.bankSwitched d).2 }) := Pass.run_handle_of_ok rfl rfl
  rcases Finish.relaxDispatch_cases s.bankSwitched d with heq | ⟨b, heq, -⟩
  · rw [heq] at hrelax
    rw [select, Stage.run_through_step rfl hrelax rfl, tokens_encode hname rfl, made, heq]
    rfl
  · rw [heq] at hrelax
    rw [select, Stage.run_through_step rfl hrelax rfl, Stage.run_through_step rfl (Pass.run_handle_of_ok rfl rfl) rfl,
      Stage.run_through_last (Pass.run_handle_of_ok rfl rfl), made, heq]
    rfl

/-- The selection of jumps sets the mark as an item tells, and no step behind it touches the mark. -/
theorem bankSwitched_select (w : Workbench) (item : Item) (s : State) :
    ((w.select item Trail.empty).run s).2.bankSwitched = Finish.mark s.bankSwitched item.token := by
  cases hmessage : item.token.isMessage with
  | true =>
    obtain ⟨token, pending⟩ := item
    cases token with
    | message d => rw [select, Stage.run_through_message rfl hmessage]; rfl
    | _ => cases hmessage
  | false =>
    have hrelax : ∃ out, ((Pass.ofToken Finish.relax).handle w.block.inMacro item).run s =
        (out, { s with bankSwitched := Finish.mark s.bankSwitched item.token }) := by
      obtain ⟨token, pending⟩ := item
      cases token with
      | message d => cases hmessage
      | _ => exact ⟨_, Pass.run_handle_of_ok hmessage rfl⟩
    obtain ⟨out, hout⟩ := hrelax
    -- what it emits runs through a stage of the two steps that are left
    have hrest : State.Conducts (fun _ _ => true) { s with bankSwitched := Finish.mark s.bankSwitched item.token }
        ((Stage.run w.block.inMacro [.ofToken (Finish.encode w)] (.ofToken (Finish.complete w)) out.items).run
          { s with bankSwitched := Finish.mark s.bankSwitched item.token }).2 := by
      refine (Stage.rel_run State.Conducts.progress (fun pass hpass i s => ?_) _ _).1
      simp only [List.mem_cons, List.not_mem_nil, or_false] at hpass
      rcases hpass with rfl | rfl
      · exact Pass.conducts_handle (Pass.conducts_complete w i) _ s
      · exact Pass.conducts_handle (Pass.conducts_encode w i) _ s
    rw [select, Stage.run_through_cons hout]
    exact hrest.bankSwitched

/-- What arrives at the selection of jumps becomes what the mark tells that what arrived before has left. -/
inductive Follows (w : Workbench) : Bool → List Arrival → Bool → Prop where
  /-- Nothing arrives. -/
  | nil (m : Bool) : Follows w m [] m
  /-- An item arrives, and then others. -/
  | cons {m m' : Bool} {a : Arrival} {rest : List Arrival}
    (hmade : ∀ d loc name, a.item.token = .dispatch d → d.callee = .identifier loc name →
      a.trail.tokens = w.made m name d)
    (hrest : Follows w (Finish.mark m a.item.token) rest m') : Follows w m (a :: rest) m'

namespace Follows

variable {m m' m'' : Bool} {as as' : List Arrival}

/-- What arrives after something else. -/
theorem append (h : w.Follows m as m') (h' : w.Follows m' as' m'') : w.Follows m (as ++ as') m'' := by
  induction h with
  | nil m => exact h'
  | cons hmade _ ih => exact .cons hmade (ih h')

/-- An instruction of a name becomes what the mark tells that everything before has left. -/
theorem calls {p : Passage} (h : w.Follows m p.arrivals m') {front : List Token} {d : Dispatch} {name : Text}
    {became : List Token} (hcalls : p.Calls front d name became) :
    became = w.made (front.foldl Finish.mark m) name d := by
  obtain ⟨before, a, later, loc, hsplit, rfl, hd, hname, rfl⟩ := hcalls
  rw [hsplit] at h
  clear hsplit
  induction before generalizing m with
  | nil =>
    cases h with
    | cons hmade _ => exact hmade d loc name hd hname
  | cons z before ih =>
    cases h with
    | cons _ hrest => exact ih hrest

end Follows

/-- The state that an item leaves has the mark that what arrives of it leaves. -/
def Marks (w : Workbench) (g : Item → StateM State Passage) : Prop :=
  ∀ item s, w.Follows s.bankSwitched ((g item).run s).1.arrivals ((g item).run s).2.bankSwitched

namespace Marks

variable {g : Item → StateM State Passage}

/-- The items of a list, one after the other. -/
theorem survey (h : w.Marks g) (items : List Item) (s : State) :
    w.Follows s.bankSwitched ((Stage.survey g items).run s).1.arrivals
      ((Stage.survey g items).run s).2.bankSwitched := by
  induction items generalizing s with
  | nil => exact .nil _
  | cons item rest ih =>
    have hfirst := h item s
    rcases hrun : (g item).run s with ⟨p, s1⟩
    rw [hrun] at hfirst
    cases hp : p.stopped with
    | true =>
      rw [Stage.run_survey_of_stopped hrun hp]
      exact hfirst
    | false =>
      rw [Stage.run_survey_cons hrun hp]
      exact hfirst.append (ih s1)

/-- Steps in front that keep the mark. -/
theorem passage {passes : List Pass} (hpasses : ∀ pass ∈ passes, ∀ item, (pass item).Conducts fun _ _ => true) :
    w.Marks (Stage.passage w.block.inMacro w.select passes) := by
  induction passes with
  | nil =>
    intro item s
    rcases hrun : (w.select item Trail.empty).run s with ⟨t, s1⟩
    have hmark := w.bankSwitched_select item s
    rw [hrun] at hmark
    rw [Stage.passage, StateM.run_bind, hrun, StateM.run_pure]
    refine .cons (fun d loc name hd hname => ?_) (hmark ▸ .nil _)
    have htokens := w.tokens_select hd hname s
    rwa [hrun] at htokens
  | cons pass passes ih =>
    rw [List.forall_mem_cons] at hpasses
    intro item s
    have hkept := (Pass.conducts_handle (hpasses.1 item) w.block.inMacro s).bankSwitched
    rcases hout : (pass.handle w.block.inMacro item).run s with ⟨out, s1⟩
    rw [hout] at hkept
    rw [Stage.run_passage_cons hout, ← hkept]
    exact (ih hpasses.2).survey out.items s1

end Marks

/-- What arrives in a block becomes what the marks tell that what arrived before has left. -/
theorem Conducts.follows (hw : w.Conducts fun _ _ => true) (source : List Token) (s : State) :
    w.Follows s.bankSwitched ((w.passage source).run s).1.arrivals ((w.passage source).run s).2.bankSwitched := by
  have hmarks : w.Marks (Stage.passage w.block.inMacro w.select w.ahead) := by
    refine .passage fun pass hpass item => ?_
    simp only [ahead, List.mem_cons, List.not_mem_nil, or_false] at hpass
    rcases hpass with rfl | rfl | rfl
    · exact Pass.conducts_reduceAgain w item
    · exact Pass.conducts_localize hw item
    · exact Pass.conducts_expandRest hw item
  -- the stages before leave the mark as it was when the block began
  have hdeclare : State.Conducts (fun _ _ => true) s ((w.declareStage source).run s).2 := by
    refine (Stage.rel_run State.Conducts.progress (fun pass hpass item s => ?_) _ _).1
    rw [List.mem_singleton.1 hpass]
    exact Pass.conducts_handle (Declare.conducts_declareGlobals item.token) _ s
  have hbind : ∀ items s, State.Conducts (fun _ _ => true) s ((w.bindStage items).run s).2 := by
    refine fun items s => (Stage.rel_run State.Conducts.progress (fun pass hpass item s => ?_) _ _).1
    simp only [List.mem_cons, List.not_mem_nil, or_false] at hpass
    rcases hpass with rfl | rfl
    · exact Pass.conducts_handle (Pass.conducts_localize hw item) _ s
    · exact Pass.conducts_handle (Pass.conducts_reduceFirst w item) _ s
  rw [passage, StateM.run_bind, StateM.run_bind, ← hdeclare.bankSwitched, ← (hbind _ _).bankSwitched]
  exact hmarks.survey _ _

end Workbench

/-- What assembles a block is what becomes of what arrives at the selection of jumps there, at any depth of blocks. An
instruction that arrives after a bank switch with nothing but diagnostics in between is encoded from the table, and
does not become a branch. A relative jump to a label that arrives after anything else becomes one. -/
theorem Assembler.encodes_after_bankSwitch (a : Assembler) (b : Block) (depth : Nat) (source : List Token) {s : State}
    (hs : s.bankSwitched = false) :
    let w : Workbench := ⟨a, b, a.runner depth⟩
    let r := (w.passage source).run s
    (w.run source).run s = (r.1.trail, r.2) ∧
      (∀ front switch between d name became, r.1.Calls (front ++ switch :: between) d name became →
        switch.isBankSwitch = true → (∀ t ∈ between, t.isMessage = true) →
        became = Encode.outcome d.loc (Encode.instruction a.table name d) ∧ ∀ t ∈ became, t.isBranch = false) ∧
      ∀ front d name became jump, r.1.Calls front d name became → Finish.branch? d name.upper = some jump →
        Finish.afterSwitch front = false → became = [.branch jump] := by
  have hrun := Workbench.run_eq_passage ⟨a, b, a.runner depth⟩ source s
  have hfollows := (a.conducts_runner b depth).follows source s
  rw [hs] at hfollows
  dsimp only
  generalize (Workbench.passage ⟨a, b, a.runner depth⟩ source).run s = r at hrun hfollows ⊢
  refine ⟨hrun, ?_, ?_⟩
  · intro front switch between d name became hcalls hswitch hbetween
    have hbecame : became = Encode.outcome d.loc (Encode.instruction a.table name d) := by
      rw [hfollows.calls hcalls, Finish.foldl_mark_of_switch front hswitch hbetween, Workbench.made_of_marked]
    exact ⟨hbecame, fun t ht => Encode.isBranch_of_mem_outcome (hbecame ▸ ht)⟩
  · intro front d name became jump hcalls hjump hfront
    have hbecame := hfollows.calls hcalls
    obtain ⟨_, _, _, _, -, -, -, hname, -⟩ := hcalls
    rw [hbecame, Finish.foldl_mark, hfront, Workbench.made_of_branch? _ hname hjump]

namespace Banked

/-- The forms of JRS and of the switch of a bank. -/
def table : InstructionSet :=
  ⟨[("JRS", [(0x30, ⟨"JRS", ["rr"], [0xF1], [⟨1, true⟩]⟩)]),
    ("LD", [(0x3009, ⟨"LD", ["NB", "#nn"], [0xCE, 0xC4], [⟨1, false⟩]⟩)])], .edits⟩

/-- A name. -/
def named (name : Text) : Expr := .identifier Location.none name

/-- A statement that calls a name. -/
def call (name : Text) (operands : List Expr) : Token := .dispatch ⟨Location.none, named name, operands⟩

/-- `LD NB,#1`. -/
def switch : Token := call "LD" [.register ⟨Location.none, "NB"⟩, .literal Location.none 1]

/-- A label X, some statements, and `JRS X`. -/
def jumping (between : List Token) : List Token :=
  .label Location.none (named "X") :: (between ++ [call "JRS" [named "X"]])

/-- A bank switch, and the call of a macro whose argument is not known. -/
def reporting : List Token :=
  [.macroDef Location.none (named "M") [named "P"] [], switch, call "M" [named "Q"]]

/-- The place of X. -/
def placed : Token := .fragment Location.none (Naming.counted.name 1) "X"

/-- The diagnostic of that call. -/
def report : Token := .message (.fail Location.none "Cannot evaluate macro M: unknown values as parameters")

/-- `JRS X`, where X is a label. -/
def jump : Dispatch := ⟨Location.none, named "JRS", [.fragment Location.none (Naming.counted.name 1) "X"]⟩

/-- A bank switch with a label behind it, at the end of a macro call, of an iteration of a DUP, of the arm of an IF,
and of a file. -/
def apart : List (List Token) :=
  [[switch, .label Location.none (named "Y")],
    [.macroDef Location.none (named "BANK") [] [switch], call "BANK" []],
    [.dup Location.none none (.count (.literal Location.none 1)) [switch]],
    [.cond Location.none [.mk (.literal Location.none 1) [switch]] none false],
    [.inclusion Location.none (.string Location.none "bank" "") none]]

end Banked

/-- `JRS X` after a bank switch and the diagnostic of another call. -/
theorem Assembler.encodes_after_bankSwitch_reporting :
    let a : Assembler := { Assembler.bare 1 with table := Banked.table }
    let w : Workbench := ⟨a, a.outermost, a.runner 1⟩
    let p := ((w.passage (Banked.jumping Banked.reporting)).run (start Scope.initial)).1
    (start Scope.initial).bankSwitched = false ∧ ∃ front switch between d name became,
      p.Calls (front ++ switch :: between) d name became ∧ switch.isBankSwitch = true ∧
        between ≠ [] ∧ (∀ t ∈ between, t.isMessage = true) ∧ (Finish.branch? d name.upper).isSome = true ∧
          became = Encode.outcome d.loc (Encode.instruction Banked.table name d) := by
  intro a w p
  have harrived : (p.arrivals.map fun z => z.item.token) =
      ([Banked.placed] ++ Banked.switch :: [Banked.report]) ++ .dispatch Banked.jump :: [] := by rfl
  obtain ⟨became, hcalls⟩ : ∃ became, p.Calls _ Banked.jump "JRS" became := Passage.exists_calls harrived rfl
  have hreport : ∀ t ∈ [Banked.report], t.isMessage = true := fun t ht => by rw [List.mem_singleton.1 ht]; rfl
  have hencodes := encodes_after_bankSwitch a a.outermost 1 (Banked.jumping Banked.reporting)
    (s := start Scope.initial) rfl
  exact ⟨rfl, _, _, _, _, _, _, hcalls, rfl, List.cons_ne_nil _ _, hreport, rfl,
    (hencodes.2.1 _ _ _ _ _ _ hcalls rfl hreport).1⟩

/-- If a label stands between a bank switch and a jump, or the one is in another block than the other, the jump
becomes a branch. -/
theorem Assembler.assemble_relaxes :
    let a : Assembler := ⟨Banked.table, some fun _ _ _ => .ok [Banked.switch], 1, .counted⟩
    let relaxes := fun between => (a.assemble Scope.initial (Banked.jumping between)).tokens.any Token.isBranch
    relaxes [Banked.switch] = false ∧ ∀ between ∈ Banked.apart, relaxes between = true := by
  decide +kernel

end MacroAsm
