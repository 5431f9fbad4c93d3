import MacroAsm.Proofs.Assembly.Chronicle
import MacroAsm.Proofs.Assembly.Exclusive
import MacroAsm.Proofs.Assembly.Progression

/-!
# The iterations of DUPF

An iteration is assembled over a scope with a frame of its own, in which the counter is bound to the number of the
iteration and the element to the number reached (`Replay.Loop.Binds`). It always comes to an end; only a name that
is global by then cannot be bound, and ends the loop (`Replay.Loop.exec_turn_of_not_bindable`).

So DUPF replays its body for the integers of its progression, in order and without leaving one out, until they are
used up, until the output is closed, or until a name cannot be bound (`Replay.exec_sequence`). The elements are the
integers themselves however near they are to the bounds of 64 bits. The counter is a number of 64 bits as well, and a
progression may have more integers than it can count (`Replay.sequence_not_bound`).
-/

namespace MacroAsm

namespace Frame

/-- A frame in which a name is bound to a value, unless the name is empty. -/
structure Binds (f : Frame) (name : Text) (value : Expr) (f' : Frame) : Prop where
  /-- The name is bound to the value. -/
  bound : name.isEmpty = false → ∃ sym, f'.find? name = some sym ∧ sym.value = some value
  /-- Other names are bound to what they were. -/
  others : ∀ other, other ≠ name → f'.find? other = f.find? other

/-- A frame whose symbol of a name is given a value. -/
theorem binds_modify {f g : Frame} {name : Text} {sym : Symbol} (hname : g.find? name = some sym)
    (hothers : ∀ other, other ≠ name → g.find? other = f.find? other) {value : Expr} {change : Symbol → Symbol}
    (hchange : (change sym).value = some value) : f.Binds name value (g.modify name change) where
  bound _ := ⟨change sym, by rw [find?_modify_self, hname, Option.map_some], hchange⟩
  others other hother := by rw [find?_modify_of_ne hother, hothers other hother]

end Frame

namespace Scope

/-- A name that is in the innermost frame is found there. -/
theorem find?_of_top {root f : Frame} {rest : List Frame} {name : Text} {sym : Symbol}
    (h : f.find? name = some sym) : find? ⟨root, f :: rest⟩ name = some sym := by
  rw [find?, List.cons_append, findIn, h]
  rfl

/-- The innermost frame hides no name that it does not bind. -/
theorem find?_of_top_eq_none {s : Scope} {f : Frame} {name : Text} (h : f.find? name = none) :
    find? ⟨s.root, f :: s.inner⟩ name = s.find? name := by
  rw [find?, List.cons_append, findIn, h]
  rfl

/-- A global name cannot be bound in another frame. -/
theorem bindIn_of_isGlobal {s : Scope} {name : Text} (h : s.isGlobal name = true) (value : Expr) (loc : Location) :
    Expand.bindIn s name value loc = .error (.conflict name true) := by
  rw [isGlobal] at h
  rw [Expand.bindIn, declareLocal, if_pos h]
  rfl

/-- Any other name is bound in the innermost frame. -/
theorem exists_bindIn {root f : Frame} {rest : List Frame} {name : Text}
    (h : isGlobal ⟨root, f :: rest⟩ name = false) (value : Expr) (loc : Location) :
    ∃ f', Expand.bindIn ⟨root, f :: rest⟩ name value loc = .ok ⟨root, f' :: rest⟩ ∧ f.Binds name value f' := by
  rw [isGlobal] at h
  rw [Expand.bindIn, declareLocal, if_neg (Bool.eq_false_iff.1 h)]
  by_cases hcontains : f.contains name = true
  · obtain ⟨sym, hsym⟩ := Option.isSome_iff_exists.1 hcontains
    rw [if_pos (show (Scope.mk root (f :: rest)).top.contains name = true from hcontains)]
    exact ⟨_, rfl, Frame.binds_modify hsym (fun _ _ => rfl) rfl⟩
  · rw [if_neg (show ¬ (Scope.mk root (f :: rest)).top.contains name = true from hcontains)]
    have hname : (f.insert name {}).find? name = some {} := by rw [Frame.find?_insert, if_pos rfl]
    refine ⟨_, rfl, Frame.binds_modify hname (fun other hother => ?_) rfl⟩
    rw [Frame.find?_insert, if_neg hother]

/-- The scope with a name of a loop bound in its innermost frame. An empty name is not bound. -/
def bindNamed (s : Scope) (name : Text) (value : Expr) (loc : Location) : Except Cause Scope :=
  if name.isEmpty then .ok s else Expand.bindIn s name value loc

/-- A name of a loop is bound unless it is global. -/
theorem exists_bindNamed (root f : Frame) (rest : List Frame) {name : Text}
    (h : name.isEmpty = false → isGlobal ⟨root, f :: rest⟩ name = false) (value : Expr) (loc : Location) :
    ∃ f', bindNamed ⟨root, f :: rest⟩ name value loc = .ok ⟨root, f' :: rest⟩ ∧ f.Binds name value f' := by
  cases hempty : name.isEmpty with
  | true =>
    refine ⟨f, ?_, fun hname => ?_, fun _ _ => rfl⟩
    · rw [bindNamed, if_pos hempty]
    · rw [hempty] at hname
      cases hname
  | false =>
    rw [bindNamed, if_neg (Bool.eq_false_iff.1 hempty)]
    exact exists_bindIn (h hempty) value loc

/-- A name of a loop that is global cannot be bound. -/
theorem bindNamed_of_isGlobal {s : Scope} {name : Text} (hempty : name.isEmpty = false)
    (h : s.isGlobal name = true) (value : Expr) (loc : Location) :
    bindNamed s name value loc = .error (.conflict name true) := by
  rw [bindNamed, if_neg (Bool.eq_false_iff.1 hempty), bindIn_of_isGlobal h]

end Scope

namespace Replay

namespace Loop

variable {w : Workbench} {run : Runner} {l : Loop} {s : Scope}

/-- Whether the names of a loop can be bound: none of them is global. -/
def Bindable (l : Loop) (s : Scope) : Prop :=
  ∀ name, name = l.counter ∨ name = l.element → name.isEmpty = false → s.isGlobal name = false

/-- The scope of the iteration of a number and an element: the counter and the element are bound to them in a new
frame. Where both have one name, it is bound to the element. -/
structure Binds (l : Loop) (k : Nat) (x : Int64) (s t : Scope) : Prop where
  /-- The frame is the only difference. -/
  unnest : t.unnest = s
  /-- The element is bound to its number. -/
  element : l.element.isEmpty = false →
    ∃ sym, t.find? l.element = some sym ∧ sym.value = some (.literal l.loc x)
  /-- The counter is bound to the number of the iteration. -/
  counter : l.counter.isEmpty = false → l.counter ≠ l.element →
    ∃ sym, t.find? l.counter = some sym ∧ sym.value = some (.literal l.loc (Int64.ofNat k))
  /-- Other names are bound to what they were. -/
  others : ∀ name, name ≠ l.counter → name ≠ l.element → t.find? name = s.find? name

/-- The counter is bound before the element. -/
theorem scope_eq (l : Loop) (k : Nat) (x : Int64) (s : Scope) :
    l.scope k (some (.literal l.loc x)) s =
      (s.nest.bindNamed l.counter (.literal l.loc (Int64.ofNat k)) l.loc).bind fun t =>
        t.bindNamed l.element (.literal l.loc x) l.loc := by
  rw [scope, Scope.bindNamed]
  split <;> rfl

/-- The scope of an iteration of a loop whose names can be bound. -/
theorem exists_scope (h : l.Bindable s) (k : Nat) (x : Int64) :
    ∃ t, l.scope k (some (.literal l.loc x)) s = .ok t ∧ l.Binds k x s t := by
  -- the new frame takes the counter and then the element, and neither makes the other global
  obtain ⟨f, hcounter, hf⟩ := Scope.exists_bindNamed s.root Frame.empty s.inner
    (h l.counter (Or.inl rfl)) (.literal l.loc (Int64.ofNat k)) l.loc
  obtain ⟨f', helement, hf'⟩ := Scope.exists_bindNamed s.root f s.inner
    (h l.element (Or.inr rfl)) (.literal l.loc x) l.loc
  refine ⟨⟨s.root, f' :: s.inner⟩, ?_, rfl, fun hempty => ?_, fun hempty hne => ?_, fun name hcounter helement => ?_⟩
  · rw [scope_eq, Scope.nest, hcounter]
    exact helement
  · obtain ⟨sym, hsym, hvalue⟩ := hf'.bound hempty
    exact ⟨sym, Scope.find?_of_top hsym, hvalue⟩
  · obtain ⟨sym, hsym, hvalue⟩ := hf.bound hempty
    rw [← hf'.others l.counter hne] at hsym
    exact ⟨sym, Scope.find?_of_top hsym, hvalue⟩
  · refine Scope.find?_of_top_eq_none ?_
    rw [hf'.others name helement, hf.others name hcounter]
    rfl

/-- A loop with a name that is global has no scope for an iteration. -/
theorem scope_of_not_bindable (h : ¬ l.Bindable s) (k : Nat) (x : Int64) :
    ∃ name, (name = l.counter ∨ name = l.element) ∧ name.isEmpty = false ∧ s.isGlobal name = true ∧
      l.scope k (some (.literal l.loc x)) s = .error (.conflict name true) := by
  by_cases hcounter : l.counter.isEmpty = false ∧ s.isGlobal l.counter = true
  · refine ⟨l.counter, Or.inl rfl, hcounter.1, hcounter.2, ?_⟩
    rw [scope_eq, Scope.bindNamed_of_isGlobal (s := s.nest) hcounter.1 hcounter.2]
    rfl
  · obtain ⟨f, hbind, -⟩ := Scope.exists_bindNamed s.root Frame.empty s.inner
      (fun hempty => Bool.eq_false_iff.2 fun hglobal => hcounter ⟨hempty, hglobal⟩)
      (.literal l.loc (Int64.ofNat k)) l.loc
    have helement : l.element.isEmpty = false ∧ s.isGlobal l.element = true := by
      rw [Bindable] at h
      push Not at h
      obtain ⟨name, rfl | rfl, hempty, hglobal⟩ := h
      · exact absurd ⟨hempty, by simpa using hglobal⟩ hcounter
      · exact ⟨hempty, by simpa using hglobal⟩
    refine ⟨l.element, Or.inr rfl, helement.1, helement.2, ?_⟩
    rw [scope_eq, Scope.nest, hbind]
    exact Scope.bindNamed_of_isGlobal (s := ⟨s.root, f :: s.inner⟩) helement.1 helement.2 _ _

/-- The iteration of a number and an element from what was emitted before it to what was emitted after it: the body
is assembled as a block under a fresh name. -/
def Turns (run : Runner) (w : Workbench) (l : Loop) (k : Nat) (x : Int64) (p q : Output × State) : Prop :=
  ∃ t, l.Binds k x p.2.scope t ∧
    (Expand.expand run ⟨⟨w.assembler.naming.name p.2.supply, w.around.args⟩, w.block.inMacro, true⟩ t l.body false).exec
      (p.1, { p.2 with supply := p.2.supply + 1 }) = (.ok ⟨⟩, q)

/-- An iteration makes its scope, and then assembles the body as a block under a fresh name. -/
theorem exec_turn (hrun : w.runner = some run) (l : Loop) (k : Nat) (x : Option Expr) (p : Output × State) :
    (l.turn w k x).exec p =
      (Emission.require (l.scope k x p.2.scope) >>= fun t =>
        Expand.expand run ⟨⟨w.assembler.naming.name p.2.supply, w.around.args⟩, w.block.inMacro, true⟩ t l.body
          false).exec
          (p.1, { p.2 with supply := p.2.supply + 1 }) := by
  rw [turn, Workbench.requireRunner, hrun]
  rfl

/-- An iteration of a loop whose names can be bound comes to an end. -/
theorem exec_turn_of_bindable (hrun : w.runner = some run) {p : Output × State} (h : l.Bindable p.2.scope) (k : Nat)
    (x : Int64) :
    ∃ q, l.Turns run w k x p q ∧ (l.turn w k (some (.literal l.loc x))).exec p = (.ok ⟨⟩, q) := by
  obtain ⟨t, hscope, hbinds⟩ := exists_scope h k x
  obtain ⟨q, hexpand⟩ : ∃ q, (Expand.expand run
      ⟨⟨w.assembler.naming.name p.2.supply, w.around.args⟩, w.block.inMacro, true⟩ t
      l.body false).exec (p.1, { p.2 with supply := p.2.supply + 1 }) = (.ok ⟨⟩, q) := by
    rw [Expand.exec_expand _ _ _ _ _ _ rfl rfl]
    split
    · exact ⟨_, rfl⟩
    · exact ⟨_, rfl⟩
  refine ⟨q, ⟨t, hbinds, hexpand⟩, ?_⟩
  rw [exec_turn hrun, hscope, ← hexpand]
  rfl

/-- An iteration of a loop with a name that is global fails. -/
theorem exec_turn_of_not_bindable (hrun : w.runner = some run) {p : Output × State} (h : ¬ l.Bindable p.2.scope)
    (k : Nat) (x : Int64) :
    ∃ name, (name = l.counter ∨ name = l.element) ∧ name.isEmpty = false ∧ p.2.scope.isGlobal name = true ∧
      (l.turn w k (some (.literal l.loc x))).exec p =
        (.error (.raise (.conflict name true)), (p.1, { p.2 with supply := p.2.supply + 1 })) := by
  obtain ⟨name, hname, hempty, hglobal, hscope⟩ := scope_of_not_bindable h k x
  refine ⟨name, hname, hempty, hglobal, ?_⟩
  rw [exec_turn hrun, hscope]
  rfl

/-- Iterations one after the other, the first under the number `k`. Each of them begins with an output that is not
closed. -/
inductive Visits (run : Runner) (w : Workbench) (l : Loop) (number : Nat → Int64) :
    Nat → Nat → Output × State → Output × State → Prop where
  /-- No iteration. -/
  | done (k : Nat) (p : Output × State) : Visits run w l number k 0 p p
  /-- An iteration before others. -/
  | turn {k n : Nat} {p p' q : Output × State} (hopen : p.1.closed = false) (hturn : l.Turns run w k (number k) p p')
    (hrest : Visits run w l number (k + 1) n p' q) : Visits run w l number k (n + 1) p q

/-- How a loop of `n` iterations ends after `m` of them. -/
inductive Ends (l : Loop) (n m : Nat) (q : Output × State) : Except Failure PUnit × (Output × State) → Prop where
  /-- There is no further iteration. -/
  | complete (hm : m = n) : Ends l n m q (.ok ⟨⟩, q)
  /-- The output was closed. -/
  | closed (hm : m < n) (hclosed : q.1.closed = true) : Ends l n m q (.ok ⟨⟩, q)
  /-- A name of the loop is global, and cannot be bound. -/
  | conflict {name : Text} (hm : m < n) (hname : name = l.counter ∨ name = l.element)
    (hempty : name.isEmpty = false) (hglobal : q.2.scope.isGlobal name = true) : Ends l n m q
      (.error (.raise (.conflict name true)), (q.1, { q.2 with supply := q.2.supply + 1 }))

/-- A loop makes its iterations in order until it ends. -/
theorem exec_times (hrun : w.runner = some run) (l : Loop) (number : Nat → Int64) (n k : Nat) (p : Output × State) :
    ∃ m ≤ n, ∃ q, l.Visits run w number k m p q ∧
      l.Ends n m q ((times (fun i => l.turn w i (some (.literal l.loc (number i)))) n k).exec p) := by
  induction n generalizing k p with
  | zero => exact ⟨0, le_rfl, p, .done k p, .complete rfl⟩
  | succ n ih =>
    rw [times, Emission.exec_bind_of_ok (Emission.exec_isClosed p)]
    cases hclosed : p.1.closed with
    | true => exact ⟨0, Nat.zero_le _, p, .done k p, .closed n.succ_pos hclosed⟩
    | false =>
      rw [if_neg Bool.false_ne_true]
      by_cases hbindable : l.Bindable p.2.scope
      · obtain ⟨p', hturn, hexec⟩ := exec_turn_of_bindable hrun hbindable k (number k)
        obtain ⟨m, hm, q, hvisits, hends⟩ := ih (k + 1) p'
        rw [Emission.exec_bind_of_ok hexec]
        refine ⟨m + 1, Nat.succ_le_succ hm, q, .turn hclosed hturn hvisits, ?_⟩
        -- the loop ends as the rest of it does, one iteration later
        generalize (times (fun i => l.turn w i (some (.literal l.loc (number i)))) n (k + 1)).exec p' = r at hends
        cases hends with
        | complete hm => exact .complete (congrArg (· + 1) hm)
        | closed hm hclosed => exact .closed (Nat.succ_lt_succ hm) hclosed
        | conflict hm hname hempty hglobal => exact .conflict (Nat.succ_lt_succ hm) hname hempty hglobal
      · obtain ⟨name, hname, hempty, hglobal, hexec⟩ := exec_turn_of_not_bindable hrun hbindable k (number k)
        rw [Emission.exec_bind_of_error hexec]
        exact ⟨0, Nat.zero_le _, p, .done k p, .conflict n.succ_pos hname hempty hglobal⟩

end Loop

/-- What has a number is known. -/
theorem isConcrete_of_asNumber {e : Expr} {v : Int64} (h : e.asNumber = .ok v) : e.isConcrete = true := by
  cases e with
  | number | numeral => rfl
  | _ => cases h

/-- A bound that has a number, or is missing, is not waited for. -/
theorem isConcrete_of_boundOr {e : Option Expr} {missing v : Int64} (h : boundOr e missing = .ok v) :
    ∀ x ∈ e, x.isConcrete = true := by
  rintro x rfl
  exact isConcrete_of_asNumber h

/-- DUPF makes a turn for each integer of its progression. -/
theorem exec_sequence_eq_times {w : Workbench} {first last step : Option Expr} {start stop stride : Int64}
    (hfirst : boundOr first 0 = .ok start) (hlast : last.map Expr.asNumber = some (.ok stop))
    (hstep : boundOr step 1 = .ok stride) (hstride : stride ≠ 0) {counter : Option Expr} {element : Expr} {c v : Text}
    {p : Output × State} {s s' : State} (hcounter : (nameOr w.around counter).exec p.2 = (.ok c, s))
    (helement : (Eval.nameOf w.around element).exec s = (.ok v, s')) (item : Item) (strict : Bool) (loc : Location)
    (body : List Token) :
    (sequence w item strict loc counter element first last step body).exec p =
      (times (fun k => Loop.turn w ⟨loc, c, v, body⟩ k
          (some (.literal loc (Int64.ofInt (Progression.get ⟨start.toInt, stop.toInt, stride.toInt⟩ k)))))
        (Progression.count ⟨start.toInt, stop.toInt, stride.toInt⟩) 0).exec (p.1, s') := by
  obtain ⟨e, rfl, he⟩ := Option.map_eq_some_iff.1 hlast
  have hknown : (([first, some e, step].filterMap id).find? fun e => !e.isConcrete) = none := by
    rw [List.find?_eq_none]
    intro x hx
    have hconcrete : x.isConcrete = true := by
      obtain ⟨bound, hbound, rfl⟩ := List.mem_filterMap.1 hx
      simp only [List.mem_cons, List.not_mem_nil, or_false] at hbound
      obtain rfl | hlast | rfl := hbound
      · exact isConcrete_of_boundOr hfirst x rfl
      · cases hlast
        exact isConcrete_of_asNumber he
      · exact isConcrete_of_boundOr hstep x rfl
    simp [hconcrete]
  have hloop : (sequence w item strict loc counter element first (some e) step body).exec p =
      (do
        let counter ← nameOr w.around counter
        let element ← Eval.nameOf w.around element
        walk (fun k v => Loop.turn w ⟨loc, counter, element, body⟩ k (some (.literal loc v))) start stop stride :
          Emission PUnit).exec p := by
    rw [sequence, hknown]
    simp only [hfirst, hstep, he, Emission.require, pure_bind, beq_false_of_ne hstride, if_neg Bool.false_ne_true]
  have hname : (liftM (nameOr w.around counter) : Emission Text).exec p = (.ok c, (p.1, s)) := by
    rw [Emission.exec_monadLift, hcounter]
  have helement' : (liftM (Eval.nameOf w.around element) : Emission Text).exec (p.1, s) = (.ok v, (p.1, s')) := by
    rw [Emission.exec_monadLift, helement]
  rw [hloop, Emission.exec_bind_of_ok hname, Emission.exec_bind_of_ok helement', walk_eq_times]

/-- DUPF replays its body for the integers from its start by its step that lie on the way to its end, in order and
with the element bound to them. It is through with them, or the output was closed, or a name of it is global and
cannot be bound. -/
theorem exec_sequence {w : Workbench} {run : Runner} (hrun : w.runner = some run) {first last step : Option Expr}
    {start stop stride : Int64} (hfirst : boundOr first 0 = .ok start)
    (hlast : last.map Expr.asNumber = some (.ok stop)) (hstep : boundOr step 1 = .ok stride) (hstride : stride ≠ 0)
    {counter : Option Expr} {element : Expr} {c v : Text} {p : Output × State} {s s' : State}
    (hcounter : (nameOr w.around counter).exec p.2 = (.ok c, s))
    (helement : (Eval.nameOf w.around element).exec s = (.ok v, s')) (item : Item) (strict : Bool) (loc : Location)
    (body : List Token) :
    ∃ (n : Nat) (number : Nat → Int64),
      (∀ k : Nat, k < n ↔
        Progression.Spans ⟨start.toInt, stop.toInt, stride.toInt⟩ (start.toInt + k * stride.toInt)) ∧
      (∀ k < n, (number k).toInt = start.toInt + k * stride.toInt) ∧
      ∃ m ≤ n, ∃ q, Loop.Visits run w ⟨loc, c, v, body⟩ number 0 m (p.1, s') q ∧
        Loop.Ends ⟨loc, c, v, body⟩ n m q
          ((sequence w item strict loc counter element first last step body).exec p) := by
  have hspans := Progression.lt_count_iff ⟨start.toInt, stop.toInt, stride.toInt⟩
  refine ⟨_, fun k => Int64.ofInt (Progression.get ⟨start.toInt, stop.toInt, stride.toInt⟩ k), hspans,
    fun k hk => ((hspans k).1 hk).toInt_ofInt, ?_⟩
  rw [exec_sequence_eq_times hfirst hlast hstep hstride hcounter helement item strict loc body]
  exact Loop.exec_times hrun _ _ _ _ _

/-- From the least number to the greatest one by 2^62, DUPF is to visit four. -/
theorem exec_sequence_widest :
    let a : Assembler := .bare 1
    let run : Runner := (a.runner 1).get rfl
    let w : Workbench := ⟨a, a.outermost, a.runner 1⟩
    let l : Loop := ⟨Location.none, "I", "X", [.data Location.none .words [.identifier Location.none "X"]]⟩
    let p : Output × State := (Output.empty false, Assembler.start Scope.initial)
    ∃ number : Nat → Int64,
      (List.range 4).map (fun k => (number k).toInt) =
        [-0x8000000000000000, -0x4000000000000000, 0, 0x4000000000000000] ∧
      ∃ m ≤ 4, ∃ q, l.Visits run w number 0 m p q ∧
        l.Ends 4 m q ((sequence w (.settled (.stop Location.none)) false l.loc (some (.identifier Location.none "I"))
          (.identifier Location.none "X") (some (.literal Location.none (-0x8000000000000000)))
          (some (.literal Location.none 0x7fffffffffffffff)) (some (.literal Location.none 0x4000000000000000))
          l.body).exec p) := by
  intro a run w l p
  have hfirst : boundOr (some (.literal Location.none (-0x8000000000000000))) 0 = .ok (-0x8000000000000000) := rfl
  have hlast : (some (.literal Location.none 0x7fffffffffffffff)).map Expr.asNumber =
      some (.ok 0x7fffffffffffffff) := rfl
  have hstep : boundOr (some (.literal Location.none 0x4000000000000000)) 1 = .ok 0x4000000000000000 := rfl
  have hcounter : (nameOr w.around (some (.identifier Location.none "I"))).exec p.2 = (.ok "I", p.2) := rfl
  have helement : (Eval.nameOf w.around (.identifier Location.none "X")).exec p.2 = (.ok "X", p.2) := rfl
  obtain ⟨n, number, hn, hnumber, m, hm, q, hvisits, hends⟩ :=
    exec_sequence (show w.runner = some run from rfl) hfirst hlast hstep (by decide) hcounter helement
      (.settled (.stop Location.none)) false l.loc l.body
  have hstart : (-0x8000000000000000 : Int64).toInt = -0x8000000000000000 := by decide
  have hstop : (0x7fffffffffffffff : Int64).toInt = 0x7fffffffffffffff := by decide
  have hstride : (0x4000000000000000 : Int64).toInt = 0x4000000000000000 := by decide
  rw [hstart, hstop, hstride] at hn
  rw [hstart, hstride] at hnumber
  obtain rfl : n = 4 := by
    have hlast := hn 3
    have hend := hn 4
    simp only [Progression.Spans] at hlast hend
    omega
  refine ⟨number, ?_, m, hm, q, hvisits, hends⟩
  simp [List.range_succ, hnumber]

/-- A name that is global cannot be the element of a DUPF: of the program that declares X by GLOBAL and then replays
`DB X` for X from 1 to 3, nothing is left but the failure. And where the integers are more than the counter can count,
it does not stay the number of the iteration. -/
theorem sequence_not_bound :
    let out := (Assembler.assemble (.bare 1) Scope.initial
      [.declare Location.none (.globally false) [.identifier Location.none "X"],
        .dup Location.none none (.sequence (.identifier Location.none "X") (some (.literal Location.none 1))
          (some (.literal Location.none 3)) none) [.data Location.none .bytes [.identifier Location.none "X"]]]).tokens
    (out.map Token.diagnostic? =
        [some ⟨.fail, Location.none, "global X is already defined", some (.conflict "X" true)⟩] ∧
      ∀ t ∈ out, t.isTerminal false = false) ∧
    0x8000000000000000 < Progression.count ⟨-0x8000000000000000, 0x7fffffffffffffff, 1⟩ ∧
    ((Loop.scope ⟨Location.none, "I", "X", []⟩ 0x8000000000000000 (some (.literal Location.none 0))
        Scope.initial).toOption.bind fun t => ((t.find? "I").bind Symbol.value).bind fun e => e.asNumber.toOption) =
      some (-0x8000000000000000) := by
  refine ⟨⟨by decide +kernel, by decide +kernel⟩, by decide +kernel, by decide +kernel⟩

end Replay

end MacroAsm
