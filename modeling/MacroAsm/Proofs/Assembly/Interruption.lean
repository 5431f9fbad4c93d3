import MacroAsm.Proofs.Assembly.Demand
import MacroAsm.Proofs.Assembly.Depth

/-!
# Interruptions

Whoever reads the output of a program may stop the run between two tokens. From then on no step takes up
anything new, but what the last step has emitted by then is still given, and so is the account of the names if
the last step is through (`Outlet.Gives`). What is read in this way (`Assembler.Reads`) is what the batches of
the program say (`Assembler.reads_iff`), so it is the beginning of the whole output, with as many tokens at
least as were asked for before the interruption (`Assembler.reads_interrupted`). A run that does not end with
the interruption gave everything.
-/

namespace MacroAsm

namespace Stage

/-- Handling an item adds batches to a trail, and leaves those that are there. -/
def Extends (f : Item → Trail → StateM State Trail) : Prop :=
  ∀ i t s, t.reversed <:+ ((f i t).run s).1.reversed

variable {inMacro : Bool} {f : Item → Trail → StateM State Trail}

/-- Handling the items of a list one after the other. -/
theorem Extends.feed (hf : Extends f) (items : List Item) (t : Trail) (s : State) :
    t.reversed <:+ ((Stage.feed f items t).run s).1.reversed := by
  induction items generalizing t s with
  | nil => exact List.suffix_refl _
  | cons i rest ih =>
    cases ht : t.stopped with
    | true => rw [run_feed_of_stopped ht]
    | false =>
      rw [run_feed_cons ht rfl]
      exact (hf i t s).trans (ih _ _)

theorem extends_last (inMacro : Bool) (last : Pass) : Extends (through inMacro last []) :=
  fun _ _ _ => List.suffix_cons _ _

end Stage

namespace Pipe

variable {f : Item → Trail → StateM State Trail}

/-- What flows out of a pipe adds batches to a trail, and leaves those that are there. -/
theorem extends_flow (inMacro : Bool) (P : Pipe) (hf : Stage.Extends f) (t : Trail) (s : State) :
    t.reversed <:+ ((P.flow inMacro f t).run s).1.reversed := by
  induction P generalizing f t s with
  | list items => exact hf.feed items t s
  | step p queue closed drained up ih =>
    have hnext : Stage.Extends (next inMacro p f) := fun i t s => hf.feed _ t _
    rw [flow_step, StateM.run_bind]
    refine (hf.feed queue t s).trans ?_
    rw [flow_rest]
    split
    · exact List.suffix_refl _
    · exact ih hnext _ _
  | hold held full up ih =>
    cases ht : t.stopped with
    | true => rw [run_flow_of_stopped _ ht]
    | false =>
      cases full with
      | true =>
        rw [run_flow_full]
        exact hf.feed held t s
      | false =>
        rw [run_flow_hold ht]
        exact hf.feed _ t _

end Pipe

/-- The output of a program that is read token by token. -/
inductive Outlet where
  /-- Tokens that are still to come from the statements, and whether a fatal diagnostic was given already. -/
  | body (pipe : Pipe) (fatal : Bool)
  /-- What is left of the account of the names. -/
  | closing (account : List Token)

namespace Outlet

/-- The account of the names of a program, unless a fatal diagnostic ended it. -/
def account (fatal : Bool) (s : State) : List Token × State :=
  if fatal then ([], s) else (MacroAsm.account false).run s

/-- What is given when a token is asked for, what is left of the output, and the state then. -/
inductive Gives (live : Bool) : Outlet → State → Taken Token → Outlet → State → Prop where
  /-- A token of the statements. -/
  | token {P P' : Pipe} {fatal : Bool} {i : Item} {s s' : State}
    (h : P.Takes false live s (.item i) P' s') :
    Gives live (body P fatal) s (.item i.token) (body P' (fatal || i.token.isFatal)) s'
  /-- The statements were interrupted. -/
  | cut {P P' : Pipe} {fatal : Bool} {s s' : State} (h : P.Takes false live s .interrupted P' s') :
    Gives live (body P fatal) s .interrupted (body P' fatal) s'
  /-- There are no statements left, and the names are accounted for. -/
  | drained {P P' : Pipe} {fatal : Bool} {r : Taken Token} {o : Outlet} {s s1 s' : State}
    (h : P.Takes false live s .nothing P' s1)
    (hrest : Gives live (closing (account fatal s1).1) (account fatal s1).2 r o s') :
    Gives live (body P fatal) s r o s'
  /-- A diagnostic of the account. -/
  | report {t : Token} {rest : List Token} {s : State} :
    Gives live (closing (t :: rest)) s (.item t) (closing rest) s
  /-- The end of the account. -/
  | ended {s : State} : Gives live (closing []) s .nothing (closing []) s

/-- What is read of an output if the run is interrupted just before the `n`-th request, the requests being
counted from `k` on. -/
inductive Reads (n : Nat) : Nat → Outlet → State → Assembly.Delivery → Prop where
  /-- A token, and what is read after it. -/
  | token {k : Nat} {o o' : Outlet} {t : Token} {s s' : State} {d : Assembly.Delivery}
    (h : Gives (decide (k < n)) o s (.item t) o' s') (hrest : Reads n (k + 1) o' s' d) :
    Reads n k o s ⟨t :: d.tokens, d.scope, d.interrupted⟩
  /-- The end of the output. -/
  | ended {k : Nat} {o o' : Outlet} {s s' : State} (h : Gives (decide (k < n)) o s .nothing o' s') :
    Reads n k o s ⟨[], s'.scope, false⟩
  /-- The interruption. -/
  | interrupted {k : Nat} {o o' : Outlet} {s s' : State} (h : Gives (decide (k < n)) o s .interrupted o' s') :
    Reads n k o s ⟨[], s'.scope, true⟩

variable {live : Bool} {o o' : Outlet} {r : Taken Token} {s s' : State} {n k : Nat} {d : Assembly.Delivery}

/-- What a request gives is determined. -/
theorem Gives.unique (h : Gives live o s r o' s') {r' : Taken Token} {o'' : Outlet} {s'' : State}
    (h' : Gives live o s r' o'' s'') : r = r' ∧ o' = o'' ∧ s' = s'' := by
  induction h generalizing r' o'' s'' with
  | token h =>
    cases h' with
    | token h' =>
      obtain ⟨hi, rfl, rfl⟩ := h.unique h'
      cases hi
      exact ⟨rfl, rfl, rfl⟩
    | cut h' | drained h' => cases (h.unique h').1
  | cut h =>
    cases h' with
    | cut h' =>
      obtain ⟨-, rfl, rfl⟩ := h.unique h'
      exact ⟨rfl, rfl, rfl⟩
    | token h' | drained h' => cases (h.unique h').1
  | drained h hrest ih =>
    cases h' with
    | drained h' hrest' =>
      obtain ⟨-, rfl, rfl⟩ := h.unique h'
      exact ih hrest'
    | token h' | cut h' => cases (h.unique h').1
  | report | ended =>
    cases h'
    exact ⟨rfl, rfl, rfl⟩

/-- What is read is determined. -/
theorem Reads.unique (h : Reads n k o s d) {d' : Assembly.Delivery} (h' : Reads n k o s d') : d = d' := by
  induction h generalizing d' with
  | token h hrest ih =>
    cases h' with
    | token h' hrest' =>
      obtain ⟨ht, rfl, rfl⟩ := h.unique h'
      cases ht
      rw [ih hrest']
    | ended h' | interrupted h' => cases (h.unique h').1
  | ended h =>
    cases h' with
    | ended h' =>
      obtain ⟨-, -, rfl⟩ := h.unique h'
      rfl
    | token h' | interrupted h' => cases (h.unique h').1
  | interrupted h =>
    cases h' with
    | interrupted h' =>
      obtain ⟨-, -, rfl⟩ := h.unique h'
      rfl
    | token h' | ended h' => cases (h.unique h').1

/-- What is read depends only on what the first request gives. -/
theorem Reads.congr {o1 : Outlet} {s1 : State} (h : Reads n k o1 s1 d)
    (hgives : ∀ r o' s', Gives (decide (k < n)) o1 s1 r o' s' → Gives (decide (k < n)) o s r o' s') :
    Reads n k o s d := by
  cases h with
  | token h hrest => exact .token (hgives _ _ _ h) hrest
  | ended h => exact .ended (hgives _ _ _ h)
  | interrupted h => exact .interrupted (hgives _ _ _ h)

/-- The account of the names is given as a whole, even after an interruption. -/
theorem reads_closing (n k : Nat) (ts : List Token) (s : State) : Reads n k (closing ts) s ⟨ts, s.scope, false⟩ := by
  induction ts generalizing k with
  | nil => exact .ended .ended
  | cons t rest ih => exact .token .report (ih (k + 1))

theorem reads_drained {P P' : Pipe} {fatal : Bool} (h : P.Takes false (decide (k < n)) s .nothing P' s') :
    Reads n k (body P fatal) s ⟨(account fatal s').1, (account fatal s').2.scope, false⟩ :=
  (reads_closing n k (account fatal s').1 (account fatal s').2).congr fun _ _ _ hrest => .drained h hrest

/-- A last step that would have to ask for more is interrupted. -/
theorem reads_cut {p : Pass} {up : Pipe} {fatal : Bool} (hlive : ¬ k < n) :
    Reads n k (body (.step p [] false false up) fatal) s ⟨[], s.scope, true⟩ := by
  have hcut : Gives (decide (k < n)) (body (.step p [] false false up) fatal) s .interrupted
      (body (.step p [] false false up) fatal) s := by
    rw [decide_eq_false hlive]
    exact .cut .cut
  exact .interrupted hcut

/-- What the last step emitted is given as a whole, even after an interruption. -/
theorem reads_queue {p : Pass} (queue : List Item) {closed drained fatal : Bool} {up : Pipe}
    (h : Reads n (k + queue.length) (body (.step p [] closed drained up)
      (fatal || (queue.map Item.token).any Token.isFatal)) s d) :
    Reads n k (body (.step p queue closed drained up) fatal) s
      ⟨queue.map Item.token ++ d.tokens, d.scope, d.interrupted⟩ := by
  induction queue generalizing k fatal with
  | nil => simpa using h
  | cons i rest ih =>
    refine .token (.token .queued) (ih ?_)
    rw [List.length_cons, List.map_cons, List.any_cons, ← Bool.or_assoc] at h
    rwa [Nat.add_assoc, Nat.add_comm 1]

/-- A step that handled an item gives what it emitted. -/
theorem reads_handled {p : Pass} {up up' : Pipe} {i : Item} {out : Output} {fatal : Bool} {s1 s2 : State}
    (hup : up.Takes false true s (.item i) up' s1)
    (hout : (p.handle false i).run s1 = (out, s2)) (hlive : k < n)
    (h : Reads n k (body (.step p out.items out.closed false up') fatal) s2 d) :
    Reads n k (body (.step p [] false false up) fatal) s d := by
  refine h.congr fun r o' s' hgives => ?_
  rw [decide_eq_true hlive] at hgives ⊢
  cases hgives with
  | token h => exact .token (.handled hup hout h)
  | cut h => exact .cut (.handled hup hout h)
  | drained h hrest => exact .drained (.handled hup hout h) hrest

end Outlet

namespace Assembly

/-- What is delivered of batches if no batch is begun once `n` tokens were, from a state on, and what follows
the last of them with the state at the end. -/
def delivery (n : Nat) (bs : List Batch) (delivered : Nat) (s : State) (closing : List Token × State) : Delivery :=
  match deliverFrom n bs delivered s with
  | (tokens, some s) => ⟨tokens, s.scope, true⟩
  | (tokens, none) => ⟨tokens ++ closing.1, closing.2.scope, false⟩

/-- Nothing is delivered once the run was interrupted. -/
theorem delivery_of_le {n delivered : Nat} (h : n ≤ delivered) (bs : List Batch) (s : State)
    (closing : List Token × State) : delivery n bs delivered s closing = ⟨[], s.scope, true⟩ := by
  cases bs with
  | nil => rw [delivery, deliverFrom, if_pos h]
  | cons b rest => rw [delivery, deliverFrom, if_pos h]

/-- What follows the last batch is delivered if the run was not interrupted by then. -/
theorem delivery_nil {n delivered : Nat} (h : delivered < n) (s : State) (closing : List Token × State) :
    delivery n [] delivered s closing = ⟨closing.1, closing.2.scope, false⟩ := by
  rw [delivery, deliverFrom, if_neg (by omega)]
  rfl

/-- What is delivered if there is another batch. -/
theorem delivery_cons {n delivered : Nat} (h : delivered < n) (b : Batch) (rest : List Batch) (s : State)
    (closing : List Token × State) : delivery n (b :: rest) delivered s closing =
      if b.closed then ⟨b.tokens ++ closing.1, closing.2.scope, false⟩
      else
        let d := delivery n rest (delivered + b.items.length) b.after closing
        ⟨b.tokens ++ d.tokens, d.scope, d.interrupted⟩ := by
  rw [delivery, deliverFrom, if_neg (by omega), delivery]
  cases b.closed with
  | true => rfl
  | false =>
    rcases deliverFrom n rest (delivered + b.items.length) b.after with ⟨tokens, ended⟩
    cases ended with
    | none => simp
    | some s => simp

end Assembly

namespace Outlet

section Flow

variable {last : Pass} {up up' : Pipe} {t t' : Trail} {s1 : State}

/-- What the last step emits for an item that is taken is the next batch. -/
theorem flow_item {i : Item} (ht : t.stopped = false) (htakes : up.Takes false true s (.item i) up' s1)
    (hflow : (up.flow false (Stage.through false last []) t).run s = (t', s')) :
    ∃ out s2, (last.handle false i).run s1 = (out, s2) ∧
      (up'.flow false (Stage.through false last [])
        (t.add ⟨out.items, out.closed, s2⟩)).run s2 = (t', s') ∧
      ⟨out.items, out.closed, s2⟩ :: t.reversed <:+ t'.reversed := by
  rcases hout : (last.handle false i).run s1 with ⟨out, s2⟩
  have hcontinues := htakes.continues (Stage.through false last []) ht
  rw [hflow, Pipe.Continues, StateM.run_bind, Stage.run_through_last hout] at hcontinues
  have hextends := Pipe.extends_flow false up' (Stage.extends_last false last)
    (t.add ⟨out.items, out.closed, s2⟩) s2
  rw [← hcontinues] at hextends
  exact ⟨out, s2, rfl, hcontinues.symm, hextends⟩

/-- Nothing flows out of a pipe that has nothing left. -/
theorem flow_nothing (ht : t.stopped = false) (htakes : up.Takes false true s .nothing up' s1)
    (hflow : (up.flow false (Stage.through false last []) t).run s = (t', s')) :
    t'.reversed = t.reversed ∧ s' = s1 := by
  have hcontinues := htakes.continues (Stage.through false last []) ht
  rwa [hflow] at hcontinues

/-- What is read of the batches that flow out of a pipe. -/
theorem reads_body (n k : Nat) (fatal : Bool) {rest : List Batch} (ht : t.stopped = false)
    (hflow : (up.flow false (Stage.through false last []) t).run s = (t', s'))
    (hrest : t'.reversed = rest.reverse ++ t.reversed) :
    Reads n k (body (.step last [] false false up) fatal) s (Assembly.delivery n rest k s
      (account (fatal || (rest.flatMap Batch.tokens).any Token.isFatal) s')) := by
  induction rest generalizing up fatal t s k with
  | nil =>
    by_cases hlive : k < n
    · obtain ⟨r, up', s1, htakes⟩ := (up.runs false).gives s
      rw [Assembly.delivery_nil hlive, List.flatMap_nil, List.any_nil, Bool.or_false]
      cases r with
      | interrupted => exact absurd rfl htakes.ne_interrupted
      | item i =>
        obtain ⟨out, s2, -, -, hextends⟩ := flow_item ht htakes hflow
        rw [hrest] at hextends
        have hlength := hextends.length_le
        simp only [List.length_cons, List.reverse_nil, List.nil_append] at hlength
        omega
      | nothing =>
        obtain ⟨-, rfl⟩ := flow_nothing ht htakes hflow
        have hdrained : Pipe.Takes false (decide (k < n)) (.step last [] false false up) s .nothing
            (.step last [] false true up') s' := by
          rw [decide_eq_true hlive]
          exact .drained htakes
        exact reads_drained hdrained
    · rw [Assembly.delivery_of_le (Nat.le_of_not_lt hlive)]
      exact reads_cut hlive
  | cons b rest ih =>
    by_cases hlive : k < n
    · obtain ⟨r, up', s1, htakes⟩ := (up.runs false).gives s
      cases r with
      | interrupted => exact absurd rfl htakes.ne_interrupted
      | nothing =>
        obtain ⟨hreversed, -⟩ := flow_nothing ht htakes hflow
        rw [hrest] at hreversed
        have hlength := congrArg List.length hreversed
        simp only [List.length_append, List.length_reverse, List.length_cons] at hlength
        omega
      | item i =>
        obtain ⟨out, s2, hout, hflow', hextends⟩ := flow_item ht htakes hflow
        -- the batch of this item is the first of those that follow
        have hreversed : t'.reversed = rest.reverse ++ b :: t.reversed := by simp [hrest]
        have hsuffix : b :: t.reversed <:+ t'.reversed := hreversed ▸ List.suffix_append _ _
        have hb := (List.suffix_of_suffix_length_le hextends hsuffix (Nat.le_refl _)).eq_of_length rfl
        cases hb
        rw [Assembly.delivery_cons hlive]
        refine reads_handled htakes hout hlive ?_
        dsimp only
        cases hclosed : out.closed with
        | true =>
          rw [hclosed] at hflow' hreversed
          rw [Pipe.run_flow_of_stopped up' (by simp)] at hflow'
          cases hflow'
          have hnil : rest = [] := by simpa [Trail.add] using hreversed
          subst hnil
          have hdrained : Pipe.Takes false (decide (k + out.items.length < n))
              (.step last [] true false up') s' .nothing (.step last [] true false up') s' := .ended rfl
          simpa [Batch.tokens] using reads_queue out.items (reads_drained hdrained)
        | false =>
          rw [hclosed] at hflow' hreversed
          have hread := ih (k + out.items.length) (fatal || (out.items.map Item.token).any Token.isFatal)
            (by simp [ht]) hflow' hreversed
          simpa [Batch.tokens, Bool.or_assoc] using reads_queue out.items hread
    · rw [Assembly.delivery_of_le (Nat.le_of_not_lt hlive)]
      exact reads_cut hlive

end Flow

end Outlet

namespace Assembly

/-- What is delivered of batches of which none but the last is closed is the beginning of them, with as many
tokens as were asked for, and it is all of them unless it was interrupted. -/
theorem prefix_of_deliverFrom {n : Nat} {bs : List Batch} (hclosed : ∀ b ∈ bs.dropLast, b.closed = false)
    {delivered : Nat} {s : State} {ts : List Token} {ended : Option State}
    (h : deliverFrom n bs delivered s = (ts, ended)) :
    ts <+: bs.flatMap Batch.tokens ∧ (ended ≠ none → n ≤ delivered + ts.length) ∧
      (ended = none → ts = bs.flatMap Batch.tokens) := by
  induction bs generalizing delivered s ts with
  | nil =>
    by_cases hn : n ≤ delivered
    · rw [deliverFrom, if_pos hn] at h
      cases h
      exact ⟨List.prefix_refl _, fun _ => hn, fun _ => rfl⟩
    · rw [deliverFrom, if_neg hn] at h
      cases h
      exact ⟨List.prefix_refl _, fun hended => absurd rfl hended, fun _ => rfl⟩
  | cons b rest ih =>
    by_cases hn : n ≤ delivered
    · rw [deliverFrom, if_pos hn] at h
      cases h
      exact ⟨List.nil_prefix, fun _ => hn, fun hended => absurd hended (Option.some_ne_none _)⟩
    · rw [deliverFrom, if_neg hn] at h
      cases hb : b.closed with
      | true =>
        -- the batch that ends the program is the last one
        have hnil : rest = [] := by
          cases rest with
          | nil => rfl
          | cons c rest =>
            rw [hclosed b List.mem_cons_self] at hb
            cases hb
        subst hnil
        rw [hb, if_pos rfl] at h
        cases h
        exact ⟨by simp, fun hended => absurd rfl hended, fun _ => by simp⟩
      | false =>
        rw [hb, if_neg Bool.false_ne_true] at h
        have hlater : ∀ c ∈ rest.dropLast, c.closed = false := by
          cases rest with
          | nil => exact fun c hc => absurd hc List.not_mem_nil
          | cons c rest => exact fun d hd => hclosed d (List.mem_cons_of_mem _ hd)
        rcases hrest : deliverFrom n rest (delivered + b.items.length) b.after with ⟨ts', ended'⟩
        rw [hrest] at h
        cases h
        obtain ⟨hbegins, hlength, hall⟩ := ih hlater hrest
        refine ⟨?_, fun hended => ?_, fun hended => ?_⟩
        · rw [List.flatMap_cons]
          exact (List.prefix_append_right_inj _).2 hbegins
        · have hcount := hlength hended
          simp only [List.length_append, Batch.tokens, List.length_map]
          omega
        · rw [List.flatMap_cons, hall hended]

end Assembly

namespace Assembler

/-- The output of a program that is read token by token. -/
def outlet (a : Assembler) (source : List Token) : Outlet :=
  let w : Workbench := ⟨a, a.outermost, a.runner a.maxDepth⟩
  .body ((w.pipe source).after (.ofToken (Finish.complete w))) false

/-- What is read of a program over a root scope if the run is interrupted just before the `n`-th request for a
token, the first of them being number zero. -/
def Reads (a : Assembler) (scope : Scope) (source : List Token) (n : Nat) (d : Assembly.Delivery) : Prop :=
  Outlet.Reads n 0 (a.outlet source) (start scope) d

/-- What is read of a program up to an interruption is what its batches say. -/
theorem reads_iff (a : Assembler) (scope : Scope) (source : List Token) (n : Nat) (d : Assembly.Delivery) :
    a.Reads scope source n d ↔ d = (a.assemble scope source).interrupt n := by
  have hreads : a.Reads scope source n ((a.assemble scope source).interrupt n) := by
    rcases hrun : (Workbench.run ⟨a, a.outermost, a.runner a.maxDepth⟩ source).run (start scope) with ⟨trail, s⟩
    have hflow := Workbench.run_flow_pipe ⟨a, a.outermost, a.runner a.maxDepth⟩ source (start scope)
    rw [hrun] at hflow
    have hreversed : trail.reversed = trail.batches.reverse ++ Trail.empty.reversed := by
      simp [Trail.batches, Trail.empty]
    have hbody := Outlet.reads_body n 0 false rfl hflow hreversed
    rw [Trail.tokens_eq_flatMap, Bool.false_or] at hbody
    rw [assemble, hrun]
    exact hbody
  exact ⟨fun h => h.unique hreads, fun h => h ▸ hreads⟩

/-- What is read of a program up to an interruption is the beginning of its output, with as many tokens as were
asked for before, or all of them if there are fewer. It ends with the interruption, or everything was given. -/
theorem reads_interrupted (a : Assembler) (scope : Scope) (source : List Token) (n : Nat) :
    ∃ d, (∀ d', a.Reads scope source n d' ↔ d' = d) ∧ d = (a.assemble scope source).interrupt n ∧
      d.tokens <+: (a.assemble scope source).tokens ∧ (a.assemble scope source).tokens.take n <+: d.tokens ∧
      (d.interrupted = false → d = (a.assemble scope source).deliver) := by
  refine ⟨_, a.reads_iff scope source n, rfl, ?_⟩
  rcases hdelivered : Assembly.deliverFrom n (a.assemble scope source).batches 0 (a.assemble scope source).start
    with ⟨ts, ended⟩
  obtain ⟨hbegins, hlength, hall⟩ := Assembly.prefix_of_deliverFrom (a.closed_batches scope source) hdelivered
  rw [Assembly.interrupt, hdelivered]
  cases ended with
  | none =>
    have hts : ts ++ (a.assemble scope source).closing = (a.assemble scope source).tokens := by
      rw [hall rfl, Assembly.tokens]
    dsimp only
    rw [hts]
    exact ⟨List.prefix_refl _, List.take_prefix _ _, fun _ => rfl⟩
  | some s =>
    have hbeginning : ts <+: (a.assemble scope source).tokens := hbegins.trans (List.prefix_append _ _)
    have hcount : n ≤ ts.length := by simpa using hlength (Option.some_ne_none s)
    refine ⟨hbeginning, ?_, fun hfinished => by cases hfinished⟩
    exact List.prefix_of_prefix_length_le (List.take_prefix _ _) hbeginning (by simp; omega)

/-- What is read of a program that is not interrupted is its whole output. -/
theorem reads_whole (a : Assembler) (scope : Scope) (source : List Token) {n : Nat}
    (hn : (a.assemble scope source).tokens.length < n) (d : Assembly.Delivery) :
    a.Reads scope source n d ↔ d = (a.assemble scope source).deliver := by
  rw [reads_iff, interrupt_assemble a scope source hn]

end Assembler

end MacroAsm
