import MacroAsm.Proofs.Assembly.Evolution

/-!
# How scopes unfold

`Scope.Proceeds` tells more closely than `Scope.Evolves` what the handling of statements does to a scope. A
name that is declared in the innermost frame is nowhere else, or it is declared by LOCAL or bound to a macro
at once. The arms of an undecided condition are merged where `may` allows it, so that the runs of a program
can be told apart by what is merged in them.

`Scope.Unfolds` is the closest account. Compared with `Scope.Proceeds` it says three things more. The names that
are removed satisfy `gone`. A frozen value is not replaced, apart from the radix. And a name moves to the frame
below only when the block that used it ends (`Scope.Hoists`), right before the frame of that block goes away.
-/

namespace MacroAsm

/-- What a statement may do to a symbol that is there: a change after which it is still declared, if it
was. -/
structure Symbol.Updates (sym sym' : Symbol) : Prop extends sym.Changes sym' where
  /-- A symbol that was declared by LOCAL stays so. -/
  declared : sym.declared = true → sym'.declared = true

namespace Scope

/-- The innermost frame after a change of it. -/
@[simp]
theorem top_modifyTop (s : Scope) (g : Frame → Frame) : (s.modifyTop g).top = g s.top := by
  rw [modifyTop, top, top]
  split
  · rename_i hinner
    rw [hinner]
    rfl
  · rename_i hinner
    rw [hinner]
    rfl

/-- What the handling of statements does to a scope. The macros that are defined satisfy `ok`, and what is
merged satisfies `may`, which is told the scope, its copies after the arms, and the copy that is taken if no
test holds. -/
inductive Proceeds (may : Scope → List (Expr × Conditional.Fork) → Scope → Prop) (ok : Macro → Prop) :
    Scope → Scope → Prop where
  /-- Nothing happens. -/
  | refl (s : Scope) : Proceeds may ok s s
  /-- One thing happens after another. -/
  | trans {s t v : Scope} (hst : Proceeds may ok s t) (htv : Proceeds may ok t v) : Proceeds may ok s v
  /-- The innermost symbol of a name changes. -/
  | modify (s : Scope) (name : Text) (g : Symbol → Symbol)
    (hg : ∀ sym, s.find? name = some sym → sym.Updates (g sym)) : Proceeds may ok s (s.modify name g)
  /-- A symbol of the root frame changes. -/
  | modifyRoot (s : Scope) (name : Text) (g : Symbol → Symbol)
    (hg : ∀ sym, s.root.find? name = some sym → sym.Updates (g sym)) :
    Proceeds may ok s { s with root := s.root.modify name g }
  /-- A name that does not exist is declared in the innermost frame. -/
  | declareAhead {s s' : Scope} {name : Text} (hnone : s.find? name = none)
    (h : s.declareLocal name = .ok s') : Proceeds may ok s s'
  /-- A name is declared in the innermost frame by LOCAL. -/
  | declareLocal {s s' : Scope} {name : Text} (h : s.declareLocal name = .ok s') (loc : Location) :
    Proceeds may ok s (s'.modifyTop fun f => f.modify name fun sym => { sym with declared := true, loc })
  /-- A name is declared in the root frame. -/
  | declareGlobal {s s' : Scope} {name : Text} (h : s.declareGlobal name = .ok s') :
    Proceeds may ok s s'
  /-- A name that does not exist is bound by DEFINE. -/
  | define {s s' : Scope} {name : Text} (hnone : s.find? name = none)
    (h : s.declareGlobal name = .ok s') (value : Expr) (loc : Location) :
    Proceeds may ok s (s'.modify name fun sym => { sym with value := some value, loc, define := true })
  /-- A name that was bound by DEFINE or to a macro is removed. -/
  | remove {s : Scope} {name : Text} {sym : Symbol} (hfind : s.find? name = some sym)
    (h : sym.define = true ∨ sym.isMacro = true) : Proceeds may ok s (s.remove name)
  /-- A name of the innermost frame is bound to a macro. -/
  | defineMacro {s s' : Scope} {name : Text} (h : s.declareLocal name = .ok s') {m : Macro} (hm : ok m)
    (loc : Location) :
    Proceeds may ok s (s'.modifyTop fun f => f.modify name fun sym =>
      { sym with value := none, template := some m, loc })
  /-- A name that waits to be bound moves to the frame below. -/
  | hoist {s : Scope} {name : Text} {sym : Symbol} (hfind : s.top.find? name = some sym)
    (hused : sym.used = true) (hunset : sym.isSet = false) (hreserved : sym.reserved = false) :
    Proceeds may ok s (s.hoist name).1
  /-- A block is assembled over a frame of its own. -/
  | block {s t v : Scope} (hopens : s.Opens t) (hrun : Proceeds may ok t v) : Proceeds may ok s v.unnest
  /-- Arms are assembled over copies of the scope, and what they did is merged. -/
  | fork (s : Scope) (forks : List (Expr × Conditional.Fork)) (after : Conditional.Fork → Scope)
    (hforks : ∀ arm ∈ forks, Proceeds may ok s.nest (after arm.2))
    (hafter : ∀ arm ∈ forks, arm.2.scope = (after arm.2).unnest) (last : Option Scope)
    (hlast : ∀ t ∈ last, Proceeds may ok s.nest t)
    (hmay : may s forks ((last.map Scope.unnest).getD s)) :
    Proceeds may ok s (Conditional.mergeForks ((last.map Scope.unnest).getD s) forks s).1

/-- What a scope proceeds to it evolves to. -/
theorem Proceeds.evolves {may : Scope → List (Expr × Conditional.Fork) → Scope → Prop} {ok : Macro → Prop}
    {s s' : Scope} (h : Proceeds may ok s s') : Evolves ok s s' := by
  induction h with
  | refl s => exact .refl s
  | trans _ _ ihst ihtv => exact .trans ihst ihtv
  | modify s name g hg => exact .modify s name g fun sym hsym => (hg sym hsym).toChanges
  | modifyRoot s name g hg => exact .modifyRoot s name g fun sym hsym => (hg sym hsym).toChanges
  | declareAhead _ h => exact .declareLocal h
  | declareLocal h loc =>
    refine .trans (.declareLocal h) (.modifyTop _ _ _ fun _ _ => ?_)
    exact ⟨rfl, rfl, rfl, rfl, id, id, Or.inl rfl⟩
  | declareGlobal h => exact .declareGlobal h
  | define hnone h value loc => exact .define hnone h value loc
  | remove hfind h => exact .remove hfind h
  | defineMacro h hm loc => exact .trans (.declareLocal h) (.defineMacro _ _ hm loc)
  | hoist hfind hused hunset hreserved => exact .hoist hfind hused hunset hreserved
  | block hopens _ ih => exact .block hopens ih
  | fork s forks after _ hafter last _ _ ihforks ihlast => exact .fork s forks after ihforks hafter last ihlast

end Scope

/-- What a statement may do to the symbol of a name: a frozen value stays, unless it is the radix. -/
structure Symbol.Revises (name : Text) (sym sym' : Symbol) : Prop extends sym.Updates sym' where
  /-- A frozen value is kept. -/
  frozenValue : name ≠ Scope.radixName → sym.frozen = true → sym.value.isSome = true →
    sym'.value = sym.value

theorem Symbol.Updates.revises {name : Text} {sym sym' : Symbol} (h : sym.Updates sym')
    (hvalue : sym'.value = sym.value) : sym.Revises name sym' :=
  ⟨h, fun _ _ _ => hvalue⟩

namespace Scope

/-- The end of a block: names that wait to be bound move from its frame to the one below. -/
inductive Hoists : Scope → Scope → Prop where
  /-- No name moves. -/
  | refl (s : Scope) : Hoists s s
  /-- A name moves, and then others. -/
  | step {s t : Scope} {name : Text} {sym : Symbol} (hfind : s.top.find? name = some sym)
    (hused : sym.used = true) (hunset : sym.isSet = false) (hreserved : sym.reserved = false)
    (hrest : Hoists (s.hoist name).1 t) : Hoists s t

/-- What the handling of statements does to a scope. The names that are removed satisfy `gone`, and the
macros that are defined satisfy `ok`. -/
inductive Unfolds (gone : Text → Prop) (ok : Macro → Prop) : Scope → Scope → Prop where
  /-- Nothing happens. -/
  | refl (s : Scope) : Unfolds gone ok s s
  /-- One thing happens after another. -/
  | trans {s t v : Scope} (hst : Unfolds gone ok s t) (htv : Unfolds gone ok t v) : Unfolds gone ok s v
  /-- The innermost symbol of a name changes. -/
  | modify (s : Scope) (name : Text) (g : Symbol → Symbol)
    (hg : ∀ sym, s.find? name = some sym → sym.Revises name (g sym)) : Unfolds gone ok s (s.modify name g)
  /-- A symbol of the root frame changes. -/
  | modifyRoot (s : Scope) (name : Text) (g : Symbol → Symbol)
    (hg : ∀ sym, s.root.find? name = some sym → sym.Revises name (g sym)) :
    Unfolds gone ok s { s with root := s.root.modify name g }
  /-- A name that does not exist is declared in the innermost frame. -/
  | declareAhead {s s' : Scope} {name : Text} (hnone : s.find? name = none)
    (h : s.declareLocal name = .ok s') : Unfolds gone ok s s'
  /-- A name is declared in the innermost frame by LOCAL. -/
  | declareLocal {s s' : Scope} {name : Text} (h : s.declareLocal name = .ok s') (loc : Location) :
    Unfolds gone ok s
      (s'.modifyTop fun f => f.modify name fun sym => { sym with declared := true, loc })
  /-- A name is declared in the root frame. -/
  | declareGlobal {s s' : Scope} {name : Text} (h : s.declareGlobal name = .ok s') : Unfolds gone ok s s'
  /-- A name that does not exist is bound by DEFINE. -/
  | define {s s' : Scope} {name : Text} (hnone : s.find? name = none)
    (h : s.declareGlobal name = .ok s') (value : Expr) (loc : Location) :
    Unfolds gone ok s (s'.modify name fun sym => { sym with value := some value, loc, define := true })
  /-- A name that was bound by DEFINE or to a macro is removed. -/
  | remove {s : Scope} {name : Text} {sym : Symbol} (hfind : s.find? name = some sym)
    (h : sym.define = true ∨ sym.isMacro = true) (hgone : gone name) : Unfolds gone ok s (s.remove name)
  /-- A name of the innermost frame that holds no frozen value is bound to a macro. -/
  | defineMacro {s s' : Scope} {name : Text} (h : s.declareLocal name = .ok s')
    (hopen : ∀ sym, s'.top.find? name = some sym → sym.frozen = true → sym.value = none)
    {m : Macro} (hm : ok m) (loc : Location) :
    Unfolds gone ok s (s'.modifyTop fun f => f.modify name fun sym =>
      { sym with value := none, template := some m, loc })
  /-- A block is assembled over a frame of its own. -/
  | block {s t v v' : Scope} (hopens : s.Opens t) (hrun : Unfolds gone ok t v) (hends : v.Hoists v') :
    Unfolds gone ok s v'.unnest
  /-- Arms are assembled over copies of the scope, and what they did is merged. -/
  | fork (s : Scope) (forks : List (Expr × Conditional.Fork)) (ran ended : Conditional.Fork → Scope)
    (hforks : ∀ arm ∈ forks, Unfolds gone ok s.nest (ran arm.2))
    (hends : ∀ arm ∈ forks, (ran arm.2).Hoists (ended arm.2))
    (hended : ∀ arm ∈ forks, arm.2.scope = (ended arm.2).unnest) (last : Option (Scope × Scope))
    (hlast : ∀ t ∈ last, Unfolds gone ok s.nest t.1) (hlastEnds : ∀ t ∈ last, t.1.Hoists t.2) :
    Unfolds gone ok s
      (Conditional.mergeForks (((last.map Prod.snd).map Scope.unnest).getD s) forks s).1

variable {gone : Text → Prop} {ok : Macro → Prop} {s s' t : Scope}

/-- At the end of a block the scope proceeds. -/
theorem Hoists.proceeds (may : Scope → List (Expr × Conditional.Fork) → Scope → Prop)
    (ok : Macro → Prop) (h : s.Hoists s') : Proceeds may ok s s' := by
  induction h with
  | refl s => exact .refl s
  | step hfind hused hunset hreserved _ ih => exact .trans (.hoist hfind hused hunset hreserved) ih

theorem Hoists.evolves (ok : Macro → Prop) (h : s.Hoists s') : Evolves ok s s' :=
  (h.proceeds (fun _ _ _ => True) ok).evolves

/-- What a scope unfolds to it proceeds to, whatever may be merged. -/
theorem Unfolds.proceeds (h : Unfolds gone ok s s') : Proceeds (fun _ _ _ => True) ok s s' := by
  induction h with
  | refl s => exact .refl s
  | trans _ _ ihst ihtv => exact .trans ihst ihtv
  | modify s name g hg => exact .modify s name g fun sym hsym => (hg sym hsym).toUpdates
  | modifyRoot s name g hg => exact .modifyRoot s name g fun sym hsym => (hg sym hsym).toUpdates
  | declareAhead hnone h => exact .declareAhead hnone h
  | declareLocal h loc => exact .declareLocal h loc
  | declareGlobal h => exact .declareGlobal h
  | define hnone h value loc => exact .define hnone h value loc
  | remove hfind h _ => exact .remove hfind h
  | defineMacro h _ hm loc => exact .defineMacro h hm loc
  | block hopens _ hends ih =>
    -- there, names may move at any time, and so may those that move at the end of the block
    exact .block hopens (.trans ih (hends.proceeds _ _))
  | fork s forks ran ended _ hends hended last _ hlastEnds ihforks ihlast =>
    refine .fork s forks ended (fun arm harm => .trans (ihforks arm harm) ((hends arm harm).proceeds _ _)) hended
      (last.map Prod.snd) (fun t ht => ?_) trivial
    obtain ⟨r, hr, rfl⟩ := Option.map_eq_some_iff.1 ht
    exact .trans (ihlast r hr) ((hlastEnds r hr).proceeds _ _)

theorem Unfolds.evolves (h : Unfolds gone ok s s') : Evolves ok s s' := h.proceeds.evolves

/-- What a scope unfolds to while fewer names are removed and fewer macros are defined. -/
theorem Unfolds.mono {gone' : Text → Prop} {ok' : Macro → Prop} (h : Unfolds gone ok s s')
    (hgone : ∀ name, gone name → gone' name) (hok : ∀ m, ok m → ok' m) : Unfolds gone' ok' s s' := by
  induction h with
  | refl s => exact .refl s
  | trans _ _ ihst ihtv => exact .trans ihst ihtv
  | modify s name g hg => exact .modify s name g hg
  | modifyRoot s name g hg => exact .modifyRoot s name g hg
  | declareAhead hnone h => exact .declareAhead hnone h
  | declareLocal h loc => exact .declareLocal h loc
  | declareGlobal h => exact .declareGlobal h
  | define hnone h value loc => exact .define hnone h value loc
  | remove hfind h hname => exact .remove hfind h (hgone _ hname)
  | defineMacro h hopen hm loc => exact .defineMacro h hopen (hok _ hm) loc
  | block hopens _ hends ih => exact .block hopens ih hends
  | fork s forks ran ended _ hends hended last _ hlastEnds ihforks ihlast =>
    exact .fork s forks ran ended ihforks hends hended last ihlast hlastEnds

end Scope

end MacroAsm
