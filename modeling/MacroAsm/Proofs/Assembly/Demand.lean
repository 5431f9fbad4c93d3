import MacroAsm.Proofs.Assembly.Definitions

/-!
# Items on demand

The output of a program need not be made as a whole: whoever reads it asks for one token after the other, and
a step handles an item only when the items that it emitted before have been taken. A `Pipe` is a chain of such
steps. What happens when an item is asked for is `Pipe.Takes`: a step gives what it emitted, and asks the pipe
behind it only when there is nothing left of that, and only as long as the request is not interrupted.

`Pipe.flow` is the same chain without anyone asking: every item is handled as far as it leads before the next
one is touched. That one item was taken makes no difference to what flows out of the pipe
(`Pipe.Takes.continues`), so the stages of a block may be read either way (`Workbench.flow_pipe`).
-/

namespace MacroAsm

/-- What is given when something is asked for. -/
inductive Taken (α : Type) where
  /-- Something. -/
  | item (a : α)
  /-- There is nothing left. -/
  | nothing
  /-- The request was interrupted. -/
  | interrupted

/-- Steps that items are taken out of one at a time. -/
inductive Pipe where
  /-- Items that are there already. -/
  | list (items : List Item)
  /-- A step, with the items that it emitted and nobody took yet. It asks the pipe behind it for more, unless
  it emitted a terminal item or there was nothing left to take. -/
  | step (p : Pass) (queue : List Item) (closed drained : Bool) (up : Pipe)
  /-- Items that are held back until there is nothing left to take from the pipe behind, and then given with
  the diagnostics first. -/
  | hold (held : List Item) (full : Bool) (up : Pipe)

namespace Pipe

/-- What is given when an item is asked for, what is left of the pipe, and the state then. A request that is
interrupted begins nothing: what was emitted before is given, but the pipe behind is not asked. -/
inductive Takes (inMacro : Bool) : Bool → Pipe → State → Taken Item → Pipe → State → Prop where
  /-- The next item of a list. -/
  | head {i : Item} {items : List Item} {s : State} :
    Takes inMacro true (list (i :: items)) s (.item i) (list items) s
  /-- A list at its end. -/
  | last {s : State} : Takes inMacro true (list []) s .nothing (list []) s
  /-- A list that is not looked at. -/
  | unread {items : List Item} {s : State} : Takes inMacro false (list items) s .interrupted (list items) s
  /-- An item that a step emitted before. -/
  | queued {live : Bool} {p : Pass} {i : Item} {queue : List Item} {closed drained : Bool} {up : Pipe} {s : State} :
    Takes inMacro live (step p (i :: queue) closed drained up) s (.item i) (step p queue closed drained up) s
  /-- A step that gives nothing more. -/
  | ended {live : Bool} {p : Pass} {closed drained : Bool} {up : Pipe} {s : State}
    (h : (closed || drained) = true) :
    Takes inMacro live (step p [] closed drained up) s .nothing (step p [] closed drained up) s
  /-- A step that may not ask for more. -/
  | cut {p : Pass} {up : Pipe} {s : State} :
    Takes inMacro false (step p [] false false up) s .interrupted (step p [] false false up) s
  /-- A step handles an item, and goes on with what it emits. -/
  | handled {p : Pass} {up up' pipe : Pipe} {i : Item} {out : Output} {r : Taken Item} {s s1 s2 s' : State}
    (hup : Takes inMacro true up s (.item i) up' s1) (hout : (p.handle inMacro i).run s1 = (out, s2))
    (hrest : Takes inMacro true (step p out.items out.closed false up') s2 r pipe s') :
    Takes inMacro true (step p [] false false up) s r pipe s'
  /-- A step learns that there is nothing left. -/
  | drained {p : Pass} {up up' : Pipe} {s s' : State} (hup : Takes inMacro true up s .nothing up' s') :
    Takes inMacro true (step p [] false false up) s .nothing (step p [] false true up') s'
  /-- An item that was held back. -/
  | released {live : Bool} {i : Item} {held : List Item} {up : Pipe} {s : State} :
    Takes inMacro live (hold (i :: held) true up) s (.item i) (hold held true up) s
  /-- Nothing that was held back is left. -/
  | empty {live : Bool} {up : Pipe} {s : State} :
    Takes inMacro live (hold [] true up) s .nothing (hold [] true up) s
  /-- One more item is held back. -/
  | held {live : Bool} {held : List Item} {up up' pipe : Pipe} {i : Item} {r : Taken Item} {s s1 s' : State}
    (hup : Takes inMacro live up s (.item i) up' s1)
    (hrest : Takes inMacro live (hold (held ++ [i]) false up') s1 r pipe s') :
    Takes inMacro live (hold held false up) s r pipe s'
  /-- Everything was held back, and the diagnostics come first. -/
  | filled {live : Bool} {held : List Item} {up up' pipe : Pipe} {r : Taken Item} {s s1 s' : State}
    (hup : Takes inMacro live up s .nothing up' s1)
    (hrest : Takes inMacro live (hold (Stage.messagesFirst held) true up') s1 r pipe s') :
    Takes inMacro live (hold held false up) s r pipe s'
  /-- What was held back is lost if the pipe behind is interrupted. -/
  | lost {live : Bool} {held : List Item} {up up' : Pipe} {s s' : State}
    (hup : Takes inMacro live up s .interrupted up' s') :
    Takes inMacro live (hold held false up) s .interrupted (hold [] false up') s'

variable {inMacro live : Bool} {P P' : Pipe} {r : Taken Item} {s s' : State}

/-- A request that is not interrupted gives an item, or there is none left. -/
theorem Takes.ne_interrupted (h : Takes inMacro true P s r P' s') : r ≠ .interrupted := by
  generalize hlive : true = live at h
  induction h with
  | head | last | queued | ended | drained | released | empty => nofun
  | unread | cut => cases hlive
  | handled _ _ _ _ ih => exact ih rfl
  | held _ _ _ ih | filled _ _ _ ih => exact ih hlive
  | lost _ ih => exact absurd rfl (ih hlive)

/-- What a request gives is determined. -/
theorem Takes.unique (h : Takes inMacro live P s r P' s') {r' : Taken Item} {P'' : Pipe} {s'' : State}
    (h' : Takes inMacro live P s r' P'' s'') : r = r' ∧ P' = P'' ∧ s' = s'' := by
  induction h generalizing r' P'' s'' with
  | head | last | unread | queued | released | empty =>
    cases h'
    exact ⟨rfl, rfl, rfl⟩
  | cut =>
    cases h' with
    | cut => exact ⟨rfl, rfl, rfl⟩
    | ended hended => cases hended
  | ended hended =>
    cases h' with
    | ended => exact ⟨rfl, rfl, rfl⟩
    | _ => cases hended
  | handled hup hout hrest ihup ihrest =>
    cases h' with
    | ended hended => cases hended
    | handled hup' hout' hrest' =>
      obtain ⟨hi, rfl, rfl⟩ := ihup hup'
      cases hi
      cases hout.symm.trans hout'
      exact ihrest hrest'
    | drained hup' => cases (ihup hup').1
  | drained hup ihup =>
    cases h' with
    | ended hended => cases hended
    | handled hup' => cases (ihup hup').1
    | drained hup' =>
      obtain ⟨-, rfl, rfl⟩ := ihup hup'
      exact ⟨rfl, rfl, rfl⟩
  | held hup hrest ihup ihrest =>
    cases h' with
    | held hup' hrest' =>
      obtain ⟨hi, rfl, rfl⟩ := ihup hup'
      cases hi
      exact ihrest hrest'
    | filled hup' | lost hup' => cases (ihup hup').1
  | filled hup hrest ihup ihrest =>
    cases h' with
    | filled hup' hrest' =>
      obtain ⟨-, rfl, rfl⟩ := ihup hup'
      exact ihrest hrest'
    | held hup' | lost hup' => cases (ihup hup').1
  | lost hup ihup =>
    cases h' with
    | lost hup' =>
      obtain ⟨-, rfl, rfl⟩ := ihup hup'
      exact ⟨rfl, rfl, rfl⟩
    | held hup' | filled hup' => cases (ihup hup').1

/-- A pipe out of which items can be taken, whatever the state is, until there is none left. -/
inductive Runs (inMacro : Bool) : Pipe → Prop where
  /-- It gives something, and what is left of it runs. -/
  | intro {P : Pipe} (gives : ∀ s, ∃ r P' s', Takes inMacro true P s r P' s')
    (left : ∀ {s i P' s'}, Takes inMacro true P s (.item i) P' s' → Runs inMacro P') : Runs inMacro P

theorem Runs.gives (h : Runs inMacro P) (s : State) : ∃ r P' s', Takes inMacro true P s r P' s' := by
  cases h with
  | intro gives left => exact gives s

/-- What is left of a pipe that runs. -/
theorem Runs.left (h : Runs inMacro P) {i : Item} (htakes : Takes inMacro true P s (.item i) P' s') :
    Runs inMacro P' := by
  cases h with
  | intro gives left => exact left htakes

/-- A list runs to its end. -/
theorem runs_list (inMacro : Bool) (items : List Item) : Runs inMacro (list items) := by
  induction items with
  | nil =>
    refine .intro (fun s => ⟨_, _, _, .last⟩) fun h => ?_
    cases h
  | cons i rest ih =>
    refine .intro (fun s => ⟨_, _, _, .head⟩) fun h => ?_
    cases h
    exact ih

/-- A step runs as long as the pipe behind it does. -/
theorem runs_step (p : Pass) {up : Pipe} (hup : Runs inMacro up) (queue : List Item) (closed drained : Bool) :
    Runs inMacro (step p queue closed drained up) := by
  induction hup generalizing queue closed drained with
  | @intro up gives left ih =>
    induction queue with
    | cons i rest ihqueue =>
      refine .intro (fun s => ⟨_, _, _, .queued⟩) fun h => ?_
      cases h
      exact ihqueue
    | nil =>
      refine .intro (fun s => ?_) fun h => ?_
      · cases hended : closed || drained with
        | true => exact ⟨_, _, _, .ended hended⟩
        | false =>
          obtain ⟨rfl, rfl⟩ := Bool.or_eq_false_iff.1 hended
          obtain ⟨r, up', s1, hup⟩ := gives s
          cases r with
          | interrupted => exact absurd rfl hup.ne_interrupted
          | nothing => exact ⟨_, _, _, .drained hup⟩
          | item i =>
            rcases hout : (p.handle inMacro i).run s1 with ⟨out, s2⟩
            obtain ⟨r, P', s', hrest⟩ := (ih hup out.items out.closed false).gives s2
            exact ⟨r, P', s', .handled hup hout hrest⟩
      · cases h with
        | handled hup hout hrest => exact (ih hup _ _ _).left hrest

/-- What is held back runs as long as the pipe behind does. -/
theorem runs_hold {up : Pipe} (hup : Runs inMacro up) (held : List Item) (full : Bool) :
    Runs inMacro (hold held full up) := by
  have hfull : ∀ (held : List Item) (up : Pipe), Runs inMacro (hold held true up) := by
    intro held up
    induction held with
    | nil =>
      refine .intro (fun s => ⟨_, _, _, .empty⟩) fun h => ?_
      cases h
    | cons i rest ih =>
      refine .intro (fun s => ⟨_, _, _, .released⟩) fun h => ?_
      cases h
      exact ih
  cases full with
  | true => exact hfull held up
  | false =>
    induction hup generalizing held with
    | @intro up gives left ih =>
      refine .intro (fun s => ?_) fun h => ?_
      · obtain ⟨r, up', s1, hup⟩ := gives s
        cases r with
        | interrupted => exact absurd rfl hup.ne_interrupted
        | nothing =>
          obtain ⟨r, P', s', hrest⟩ := (hfull (Stage.messagesFirst held) up').gives s1
          exact ⟨r, P', s', .filled hup hrest⟩
        | item i =>
          obtain ⟨r, P', s', hrest⟩ := (ih hup (held ++ [i])).gives s1
          exact ⟨r, P', s', .held hup hrest⟩
      · cases h with
        | held hup hrest => exact (ih hup _).left hrest
        | filled hup hrest => exact (hfull _ _).left hrest

/-- Every pipe runs. -/
theorem runs (inMacro : Bool) (P : Pipe) : Runs inMacro P := by
  induction P with
  | list items => exact runs_list inMacro items
  | step p queue closed drained up ih => exact runs_step p ih queue closed drained
  | hold held full up ih => exact runs_hold ih held full

/-- Puts an item on a trail as it is. -/
def keep (i : Item) (t : Trail) : StateM State Trail := return t.add ⟨[i], false, default⟩

/-- The trail of items that were put on it one after the other. -/
def kept (items : List Item) : Trail := items.foldl (fun t i => t.add ⟨[i], false, default⟩) Trail.empty

/-- Takes an item through a step, and what that emits through what follows. -/
def next (inMacro : Bool) (p : Pass) (f : Item → Trail → StateM State Trail) (i : Item) (t : Trail) :
    StateM State Trail := do
  let out ← p.handle inMacro i
  let t ← Stage.feed f out.items t
  return { t with stopped := t.stopped || out.closed }

/-- Takes everything that flows out of a pipe through what follows, until that is stopped. -/
def flow (inMacro : Bool) : Pipe → (Item → Trail → StateM State Trail) → Trail → StateM State Trail
  | list items, f, t => Stage.feed f items t
  | step p queue closed drained up, f, t => do
    let t ← Stage.feed f queue t
    if t.stopped || closed || drained then return { t with stopped := t.stopped || closed }
    else up.flow inMacro (next inMacro p f) t
  | hold held full up, f, t =>
    if t.stopped then return t
    else if full then Stage.feed f held t
    else do Stage.feed f (Stage.messagesFirst (← up.flow inMacro keep (kept held)).items) t

variable {f : Item → Trail → StateM State Trail} {t : Trail}

/-- Nothing flows into a trail that is stopped. -/
theorem run_flow_of_stopped (P : Pipe) (ht : t.stopped = true) : (P.flow inMacro f t).run s = (t, s) := by
  cases P with
  | list items => exact Stage.run_feed_of_stopped ht items
  | step p queue closed drained up =>
    rw [flow, StateM.run_bind, Stage.run_feed_of_stopped ht, ht]
    cases t
    cases ht
    rfl
  | hold held full up =>
    rw [flow, if_pos ht]
    rfl

/-- A step that was taken everything from takes the rest from the pipe behind. -/
theorem flow_rest (p : Pass) (closed drained : Bool) (up : Pipe) (f : Item → Trail → StateM State Trail)
    (t : Trail) : flow inMacro (step p [] closed drained up) f t =
      if t.stopped || closed || drained then pure { t with stopped := t.stopped || closed }
      else up.flow inMacro (next inMacro p f) t := rfl

theorem flow_step (p : Pass) (queue : List Item) (closed drained : Bool) (up : Pipe)
    (f : Item → Trail → StateM State Trail) (t : Trail) : flow inMacro (step p queue closed drained up) f t =
      Stage.feed f queue t >>= flow inMacro (step p [] closed drained up) f := rfl

/-- A step that emits a terminal item ends what flows out of the pipe behind. -/
theorem run_next (p : Pass) (up : Pipe) {i : Item} {out : Output} (hout : (p.handle inMacro i).run s = (out, s'))
    (f : Item → Trail → StateM State Trail) (t : Trail) :
    (next inMacro p f i t >>= up.flow inMacro (next inMacro p f)).run s =
      (flow inMacro (step p out.items out.closed false up) f t).run s' := by
  rw [flow_step, StateM.run_bind, next, StateM.run_bind, hout, StateM.run_bind, StateM.run_bind]
  rcases hfeed : (Stage.feed f out.items t).run s' with ⟨⟨reversed, stopped⟩, s2⟩
  rw [StateM.run_pure, flow_rest, Bool.or_false]
  dsimp only
  cases hstopped : stopped || out.closed with
  | true => rw [run_flow_of_stopped up rfl, if_pos rfl, StateM.run_pure]
  | false =>
    obtain ⟨rfl, -⟩ := Bool.or_eq_false_iff.1 hstopped
    rw [if_neg Bool.false_ne_true]

/-- What was held back flows out one item after the other. -/
theorem run_flow_full (held : List Item) (up : Pipe) (f : Item → Trail → StateM State Trail) (t : Trail) (s : State) :
    (flow inMacro (hold held true up) f t).run s = (Stage.feed f held t).run s := by
  rw [flow]
  cases ht : t.stopped with
  | true =>
    rw [Stage.run_feed_of_stopped ht]
    rfl
  | false => rfl

/-- Items are held back until the pipe behind is drained. -/
theorem run_flow_hold (ht : t.stopped = false) (held : List Item) (up : Pipe)
    (f : Item → Trail → StateM State Trail) (s : State) : (flow inMacro (hold held false up) f t).run s =
      (Stage.feed f (Stage.messagesFirst ((up.flow inMacro keep (kept held)).run s).1.items) t).run
        ((up.flow inMacro keep (kept held)).run s).2 := by
  rw [flow, ht]
  rfl

/-- The trail of items that were put on it goes on. -/
theorem stopped_kept (items : List Item) : (kept items).stopped = false := by
  induction items using List.reverseRecOn with
  | nil => rfl
  | append_singleton items i ih => simpa [kept, List.foldl_append] using ih

/-- The trail of items that were put on it holds them. -/
theorem items_kept (items : List Item) : (kept items).items = items := by
  induction items using List.reverseRecOn with
  | nil => rfl
  | append_singleton items i ih => simpa [kept, List.foldl_append] using ih

theorem keep_kept (items : List Item) (i : Item) : keep i (kept items) = pure (kept (items ++ [i])) := by
  rw [keep, kept, kept, List.foldl_append]
  rfl

/-- What is given of a pipe is what flows out of it first, and what is left flows out then. -/
def Continues (inMacro : Bool) (f : Item → Trail → StateM State Trail) (t : Trail) (P : Pipe) (s : State) :
    Taken Item → Trail × State → Prop
  | .item i, q => q = (f i t >>= P.flow inMacro f).run s
  | .nothing, q => q.1.reversed = t.reversed ∧ q.2 = s
  | .interrupted, _ => True

/-- That an item was taken makes no difference to what flows out of a pipe. -/
theorem Takes.continues (h : Takes inMacro live P s r P' s') (f : Item → Trail → StateM State Trail) {t : Trail}
    (ht : t.stopped = false) : Continues inMacro f t P' s' r ((P.flow inMacro f t).run s) := by
  induction h generalizing f t with
  | unread | cut | lost => trivial
  | head => exact Stage.run_feed_cons ht rfl _
  | last => exact ⟨rfl, rfl⟩
  | queued =>
    rw [flow_step, StateM.run_bind, Stage.run_feed_cons ht rfl]
    rfl
  | ended hended =>
    rw [flow_rest, Bool.or_assoc, hended, Bool.or_true, if_pos rfl]
    exact ⟨rfl, rfl⟩
  | @handled p up up' pipe i out r s s1 s2 s' hup hout hrest ihup ihrest =>
    have hflow := ihup (next inMacro p f) ht
    rw [Continues, run_next p up' hout] at hflow
    rw [flow_rest, ht, Bool.or_self, Bool.or_self, if_neg Bool.false_ne_true, hflow]
    exact ihrest f ht
  | drained hup ihup =>
    rw [flow_rest, ht, Bool.or_self, Bool.or_self, if_neg Bool.false_ne_true]
    exact ihup (next inMacro _ f) ht
  | released =>
    rw [run_flow_full, Stage.run_feed_cons ht rfl, Continues, StateM.run_bind, run_flow_full]
    rfl
  | empty =>
    rw [run_flow_full]
    exact ⟨rfl, rfl⟩
  | @held live held up up' pipe i r s s1 s' hup hrest ihup ihrest =>
    have hflow := ihup keep (stopped_kept held)
    rw [Continues, keep_kept, pure_bind] at hflow
    have hheld := ihrest f ht
    rwa [run_flow_hold ht, ← hflow, ← run_flow_hold ht] at hheld
  | @filled live held up up' pipe r s s1 s' hup hrest ihup ihrest =>
    obtain ⟨hreversed, hs⟩ := ihup keep (stopped_kept held)
    have hheld := ihrest f ht
    have hitems : ((up.flow inMacro keep (kept held)).run s).1.items = held := by
      rw [Trail.items, Trail.batches, hreversed]
      exact items_kept held
    rwa [run_flow_hold ht, hitems, hs, ← run_flow_full (Stage.messagesFirst held) up' f t s1]

/-- A step that emitted nothing yet. -/
def after (up : Pipe) (p : Pass) : Pipe := step p [] false false up

/-- Takes an item through the steps of a list, and what the last of them emits through what follows. -/
def along (inMacro : Bool) (passes : List Pass) (f : Item → Trail → StateM State Trail) :
    Item → Trail → StateM State Trail :=
  passes.foldr (next inMacro) f

/-- What flows out of a step that emitted nothing yet. -/
theorem run_flow_after (up : Pipe) (p : Pass) (f : Item → Trail → StateM State Trail) (t : Trail) (s : State) :
    ((up.after p).flow inMacro f t).run s = (up.flow inMacro (next inMacro p f) t).run s := by
  rw [after, flow_rest, Bool.or_false, Bool.or_false]
  cases ht : t.stopped with
  | true =>
    rw [run_flow_of_stopped up ht, if_pos rfl, StateM.run_pure]
    cases t
    cases ht
    rfl
  | false => rw [if_neg Bool.false_ne_true]

/-- What flows out of steps that emitted nothing yet. -/
theorem run_flow_stage (passes : List Pass) (up : Pipe) (f : Item → Trail → StateM State Trail) (t : Trail)
    (s : State) : ((passes.foldl after up).flow inMacro f t).run s =
      (up.flow inMacro (along inMacro passes f) t).run s := by
  induction passes generalizing up with
  | nil => rfl
  | cons p passes ih =>
    rw [List.foldl_cons, ih, run_flow_after]
    rfl

/-- Taking an item through the steps of a stage is taking it through all but the last of them, and then through
that one. -/
theorem through_eq_along (last : Pass) (passes : List Pass) :
    Stage.through inMacro last passes = along inMacro passes (Stage.through inMacro last []) := by
  induction passes with
  | nil => rfl
  | cons p passes ih =>
    funext i t
    rw [Stage.through, ih]
    rfl

end Pipe

namespace Trail

/-- Two trails have the same items, and one goes on if the other does. -/
def Same (t t' : Trail) : Prop := t.items = t'.items ∧ t.stopped = t'.stopped

end Trail

namespace Stage

open Trail (Same)

/-- Two ways to handle an item leave the same items and the same state, from trails that go on. -/
def Matches (f g : Item → Trail → StateM State Trail) : Prop :=
  ∀ i t t' s, Same t t' → t.stopped = false →
    Same ((f i t).run s).1 ((g i t').run s).1 ∧ ((f i t).run s).2 = ((g i t').run s).2

variable {inMacro : Bool} {f g : Item → Trail → StateM State Trail}

/-- Handling the items of a list one after the other. -/
theorem Matches.feed (h : Matches f g) (items : List Item) {t t' : Trail} (ht : Same t t') (s : State) :
    Same ((Stage.feed f items t).run s).1 ((Stage.feed g items t').run s).1 ∧
      ((Stage.feed f items t).run s).2 = ((Stage.feed g items t').run s).2 := by
  induction items generalizing t t' s with
  | nil => exact ⟨ht, rfl⟩
  | cons i rest ih =>
    cases hstopped : t.stopped with
    | true =>
      rw [run_feed_of_stopped hstopped, run_feed_of_stopped (ht.2.symm.trans hstopped)]
      exact ⟨ht, rfl⟩
    | false =>
      obtain ⟨hsame, hs⟩ := h i t t' s ht hstopped
      rcases hf : (f i t).run s with ⟨t1, s1⟩
      rcases hg : (g i t').run s with ⟨t1', s1'⟩
      rw [hf, hg] at hsame hs
      cases hs
      rw [run_feed_cons hstopped hf, run_feed_cons (ht.2.symm.trans hstopped) hg]
      exact ih hsame s1

/-- Taking an item through one more step. -/
theorem Matches.next (h : Matches f g) (p : Pass) : Matches (Pipe.next inMacro p f) (Pipe.next inMacro p g) := by
  intro i t t' s ht _
  obtain ⟨⟨hitems, hstopped⟩, hs⟩ := h.feed ((p.handle inMacro i).run s).1.items ht ((p.handle inMacro i).run s).2
  exact ⟨⟨hitems, congrArg (· || ((p.handle inMacro i).run s).1.closed) hstopped⟩, hs⟩

/-- Taking an item through more steps. -/
theorem Matches.along (h : Matches f g) (inMacro : Bool) (passes : List Pass) :
    Matches (Pipe.along inMacro passes f) (Pipe.along inMacro passes g) := by
  induction passes with
  | nil => exact h
  | cons p passes ih => exact ih.next p

/-- Items are put on a trail one after the other. -/
theorem run_feed_keep (items : List Item) {t : Trail} (ht : t.stopped = false) (s : State) :
    ((feed Pipe.keep items t).run s).1.items = t.items ++ items ∧
      ((feed Pipe.keep items t).run s).1.stopped = false ∧ ((feed Pipe.keep items t).run s).2 = s := by
  induction items generalizing t with
  | nil => exact ⟨(List.append_nil _).symm, ht, rfl⟩
  | cons i rest ih =>
    have hrest := ih (t := t.add ⟨[i], false, default⟩) (by simp [ht])
    rw [Trail.items_add, List.append_assoc] at hrest
    rwa [run_feed_cons ht rfl]

/-- Putting what a step emits on a trail item by item is the same as a batch of it. -/
theorem matches_keep (inMacro : Bool) (last : Pass) :
    Matches (Pipe.next inMacro last Pipe.keep) (through inMacro last []) := by
  intro i t t' s ht hstopped
  rcases hout : (last.handle inMacro i).run s with ⟨out, s'⟩
  obtain ⟨hitems, hopen, hs⟩ := run_feed_keep out.items hstopped s'
  rcases hfeed : (feed Pipe.keep out.items t).run s' with ⟨t1, s1⟩
  rw [hfeed] at hitems hopen hs
  have hnext : (Pipe.next inMacro last Pipe.keep i t).run s =
      ({ t1 with stopped := t1.stopped || out.closed }, s1) := by
    rw [Pipe.next, StateM.run_bind, hout, StateM.run_bind, hfeed, StateM.run_pure]
  rw [hnext, run_through_last hout]
  refine ⟨⟨hitems.trans ?_, ?_⟩, hs⟩
  · rw [Trail.items_add, ht.1]
  · rw [Trail.stopped_add, ← ht.2, hstopped]
    exact congrArg (· || out.closed) hopen

/-- What is held back of the stage behind is what that stage gives. -/
theorem run_kept (last : Pass) (passes : List Pass) (items : List Item) (s : State) :
    ((feed (Pipe.along inMacro passes (Pipe.next inMacro last Pipe.keep)) items (Pipe.kept [])).run s).1.items =
        ((run inMacro passes last items).run s).1.items ∧
      ((feed (Pipe.along inMacro passes (Pipe.next inMacro last Pipe.keep)) items (Pipe.kept [])).run s).2 =
        ((run inMacro passes last items).run s).2 := by
  have hmatches := ((matches_keep inMacro last).along inMacro passes).feed items (t := Pipe.kept [])
    ⟨rfl, rfl⟩ s
  rw [run, Pipe.through_eq_along]
  exact ⟨hmatches.1.1, hmatches.2⟩

end Stage

namespace Workbench

/-- The pipe of the first stage. -/
def declarePipe (w : Workbench) (source : List Token) : Pipe :=
  (Pipe.list (source.map .settled)).after (.ofToken (Declare.declareGlobals w))

/-- The pipe of the first two stages. -/
def bindPipe (w : Workbench) (source : List Token) : Pipe :=
  ((Pipe.hold [] false (w.declarePipe source)).after (.reduceFirst w)).after (.localize w)

/-- The pipe of a block up to its last step. -/
def pipe (w : Workbench) (source : List Token) : Pipe :=
  [Pass.reduceAgain w, .localize w, .expandRest w, .ofToken Finish.relax, .ofToken (Finish.encode w)].foldl .after
    (Pipe.hold [] false (w.bindPipe source))

/-- What is held back of the first stage. -/
theorem run_flow_declarePipe (w : Workbench) (source : List Token) (s : State) :
    (((w.declarePipe source).flow w.block.inMacro Pipe.keep (Pipe.kept [])).run s).1.items =
        ((w.declareStage source).run s).1.items ∧
      (((w.declarePipe source).flow w.block.inMacro Pipe.keep (Pipe.kept [])).run s).2 =
        ((w.declareStage source).run s).2 := by
  rw [declarePipe, Pipe.run_flow_after]
  exact Stage.run_kept _ [] (source.map .settled) s

/-- What is held back of the first two stages. -/
theorem run_flow_bindPipe (w : Workbench) (source : List Token) (s : State) :
    let declared := (w.declareStage source).run s
    (((w.bindPipe source).flow w.block.inMacro Pipe.keep (Pipe.kept [])).run s).1.items =
        ((w.bindStage declared.1.items).run declared.2).1.items ∧
      (((w.bindPipe source).flow w.block.inMacro Pipe.keep (Pipe.kept [])).run s).2 =
        ((w.bindStage declared.1.items).run declared.2).2 := by
  obtain ⟨hitems, hs⟩ := run_flow_declarePipe w source s
  rw [bindPipe, Pipe.run_flow_after, Pipe.run_flow_after, Pipe.run_flow_hold (Pipe.stopped_kept []), hitems, hs]
  exact Stage.run_kept _ [Pass.reduceFirst w] _ _

/-- What flows out of the pipe of a block through its last step is what assembling the block gives. -/
theorem run_flow_pipe (w : Workbench) (source : List Token) (s : State) :
    ((w.pipe source).flow w.block.inMacro (Stage.through w.block.inMacro (.ofToken (Finish.complete w)) [])
      Trail.empty).run s = (w.run source).run s := by
  obtain ⟨hitems, hs⟩ := run_flow_bindPipe w source s
  rw [pipe, Pipe.run_flow_stage, Pipe.run_flow_hold rfl, hitems, hs, ← Pipe.through_eq_along, run,
    StateM.run_bind, StateM.run_bind, finishStage, Stage.run]

end Workbench

end MacroAsm
