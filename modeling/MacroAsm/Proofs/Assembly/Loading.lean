import MacroAsm.Loader.Basic
import MacroAsm.Proofs.Assembly.Auditing
import MacroAsm.Proofs.Assembly.Carriage

/-!
# Loading files

An INCLUDE loads a file, and what it finds begins with the dependency on that file. A program loads a file if
it matters to the output what is found there (`Assembler.Loads`). One that never asks for the file gives the same
output whatever is found there. One that does gives other output where the file cannot be read, as that is fatal.

Here the handling of a statement is compared with its handling where something else is found instead of the file.
The two are the same, unless the first one tells of the file (`Emission.Unless`): the dependency is among what was
emitted, at top level or in an arm of an IF, or a failure is reported. This holds of every statement that begins
blocks if it holds of the blocks that it begins, and so of the steps that handle them (`Pass.unless_localize`,
`Pass.unless_expandRest`).
-/

namespace MacroAsm

variable {file : Text} {inMacro : Bool}

namespace Token

mutual

/-- The files that a token tells the dependency on, in the arms of an IF too. -/
def files : Token → List Text
  | .dependency _ file => [file]
  | .cond _ clauses otherwise _ => clauseFiles clauses ++ optionFiles otherwise
  | _ => []

/-- The files that the tokens of a list tell the dependency on. -/
def allFiles : List Token → List Text
  | [] => []
  | t :: rest => files t ++ allFiles rest

/-- The files that the bodies of arms tell the dependency on. -/
def clauseFiles : List Clause → List Text
  | [] => []
  | .mk _ body :: rest => allFiles body ++ clauseFiles rest

/-- The files that an optional body tells the dependency on. -/
def optionFiles : Option (List Token) → List Text
  | none => []
  | some body => allFiles body

end

/-- The files of a list are those of each token. -/
theorem mem_allFiles {ts : List Token} : file ∈ allFiles ts ↔ ∃ t ∈ ts, file ∈ t.files := by
  induction ts with
  | nil => simp [allFiles]
  | cons t rest ih => simp [allFiles, ih]

/-- The files of arms are those of each body. -/
theorem mem_clauseFiles {clauses : List Clause} :
    file ∈ clauseFiles clauses ↔ ∃ c ∈ clauses, file ∈ allFiles c.body := by
  induction clauses with
  | nil => simp [clauseFiles]
  | cons c rest ih =>
    obtain ⟨test, body⟩ := c
    simp [clauseFiles, ih, Clause.body]

/-- A token tells of a file: the dependency on it is in the token, or the token is a failure. -/
def Tells (file : Text) (t : Token) : Prop := file ∈ t.files ∨ t.fails = true

/-- A token of a list tells of a file. -/
def AnyTells (file : Text) (ts : List Token) : Prop := ∃ t ∈ ts, t.Tells file

theorem AnyTells.mono {ts ts' : List Token} (h : AnyTells file ts) (hsub : ts ⊆ ts') : AnyTells file ts' := by
  obtain ⟨t, ht, htells⟩ := h
  exact ⟨t, hsub ht, htells⟩

theorem AnyTells.of_files {ts : List Token} (h : file ∈ allFiles ts) : AnyTells file ts := by
  obtain ⟨t, ht, hfile⟩ := mem_allFiles.1 h
  exact ⟨t, ht, Or.inl hfile⟩

theorem AnyTells.of_fails {ts : List Token} (h : ∃ t ∈ ts, t.fails = true) : AnyTells file ts := by
  obtain ⟨t, ht, hfails⟩ := h
  exact ⟨t, ht, Or.inr hfails⟩

/-- Diagnostics are no dependencies. -/
theorem files_of_isMessage {t : Token} (h : t.isMessage = true) : t.files = [] := by
  cases t with
  | message d => rfl
  | _ => cases h

end Token

open Token (AnyTells)

/-- What is found is the same, apart from where a file is found. -/
def Includer.Apart (file : Text) (find find' : Includer) : Prop := ∀ loc path loader,
  find' loc path loader = find loc path loader ∨ ∃ l rest, find loc path loader = .ok (.dependency l file :: rest)

namespace Assembler

/-- Assembles in the same way with other included files. -/
def including (a : Assembler) (find : Includer) : Assembler := { a with includer := some find }

/-- A program loads a file: it matters to the output what is found there. -/
def Loads (a : Assembler) (scope : Scope) (source : List Token) (file : Text) : Prop :=
  ∃ find find', a.includer = some find ∧ find.Apart file find' ∧
    ((a.including find').assemble scope source).tokens ≠ (a.assemble scope source).tokens

end Assembler

/-- Finds the same files apart from one that cannot be read. -/
def Includer.without (find : Includer) (file : Text) : Includer := fun loc path loader =>
  match find loc path loader with
  | .ok (.dependency l found :: rest) =>
    if found = file then .error (.fatal loc ("Cannot load " ++ file)) else .ok (.dependency l found :: rest)
  | r => r

/-- Only where that file is found it makes a difference. -/
theorem Includer.apart_without (find : Includer) (file : Text) : find.Apart file (find.without file) := by
  intro loc path loader
  rw [without]
  split
  · rename_i l found rest hfound
    by_cases heq : found = file
    · subst heq
      exact Or.inr ⟨l, rest, hfound⟩
    · rw [if_neg heq]
      exact Or.inl hfound.symm
  · exact Or.inl rfl

/-- A program that ends early where a file cannot be read loads the file. -/
theorem Assembler.loads_of_without {a : Assembler} {scope : Scope} {source : List Token} {find : Includer}
    (hfind : a.includer = some find) (hmild : (a.assemble scope source).tokens.any Token.isFatal = false)
    (hfatal : ((a.including (find.without file)).assemble scope source).tokens.any Token.isFatal = true) :
    a.Loads scope source file := by
  refine ⟨find, find.without file, hfind, find.apart_without file, fun heq => ?_⟩
  rw [heq, hmild] at hfatal
  cases hfatal

/-- The workbench of the same block with other included files, and where nested blocks are assembled in another
way. -/
def Workbench.including (w : Workbench) (find : Includer) (other : Option Runner) : Workbench :=
  ⟨w.assembler.including find, w.block, other⟩

theorem Block.exec_fresh (naming : Naming) (args : List Expr) (kind : Bool) (s : State) :
    (Block.fresh naming args kind).exec s =
      (.ok ⟨⟨naming.name s.supply, args⟩, kind, true⟩, { s with supply := s.supply + 1 }) := rfl

/-- Items that are emitted leave the kind of the block. -/
theorem Output.inMacro_pushAll (o : Output) (items : List Item) : (o.pushAll items).inMacro = o.inMacro := by
  induction items generalizing o with
  | nil => rfl
  | cons item rest ih => exact (ih (o.push item)).trans (o.inMacro_push item)

/-- An output tells of a file. -/
def Output.Tells (file : Text) (o : Output) : Prop := AnyTells file o.tokens

/-- Items are emitted after what there is. -/
theorem Output.Tells.pushAll {o : Output} (h : o.Tells file) (items : List Item) :
    (o.pushAll items).Tells file := by
  obtain ⟨n, hn⟩ := o.exists_tokens_pushAll items
  rw [Output.Tells, hn]
  exact h.mono (List.subset_append_left _ _)

theorem Output.Tells.push {o : Output} (h : o.Tells file) (i : Item) : (o.push i).Tells file := h.pushAll [i]

namespace Emission

variable {α β : Type} {V : α → Prop} {V' : β → Prop} {p : Output × State} {ends : Bool}

section Retains

/-- What was told of a file before a handling is told after it. -/
def Retains (file : Text) (e : Emission α) : Prop :=
  ∀ p : Output × State, p.1.Tells file → (e.exec p).2.1.Tells file

theorem Retains.silent {e : Emission α} (h : Silent e) : Retains file e := fun p hp => by rwa [h p]

theorem Retains.emitItems (items : List Item) : Retains file (Emission.emitItems items) :=
  fun _ hp => hp.pushAll items

/-- A handling that goes on with the result of another. -/
theorem Retains.bind {e : Emission α} {k : α → Emission β} (he : Retains file e) (hk : ∀ x, Retains file (k x)) :
    Retains file (e >>= k) := by
  intro p hp
  have hafter := he p hp
  rcases hexec : e.exec p with ⟨r, q⟩
  rw [hexec] at hafter
  cases r with
  | ok x =>
    rw [exec_bind_of_ok hexec]
    exact hk x q hafter
  | error f => rwa [exec_bind_of_error hexec]

end Retains

/-- What fails only with a fatal diagnostic makes the run fail. -/
theorem Drastic.fails {e : Emission α} (h : Drastic e) {f : Failure} {q : Output × State}
    (hexec : e.exec p = (.error f, q)) : f.fails = true := by
  rw [← Failure.fails_toDiagnostic Location.none]
  exact Token.fails_of_isFatal (t := .message _) (h p f q hexec Location.none)

/-- A handling tells of a file: it failed while the output is open, it gave a result with a property, or what was
emitted tells of it. The last is left to the handlings after which nothing is done but emit more. -/
def Tells (file : Text) (V : α → Prop) (ends : Bool) (r : Except Failure α × (Output × State)) : Prop :=
  (∃ f, r.1 = .error f ∧ f.fails = true ∧ r.2.1.closed = false) ∨ (∃ x, r.1 = .ok x ∧ V x) ∨
    ends = true ∧ r.2.1.Tells file

/-- A result of no kind tells of a file. -/
def nothing (_ : α) : Prop := False

/-- Two handlings do the same, unless the first one tells of a file. -/
def Unless (file : Text) (V : α → Prop) (ends : Bool) (e e' : Emission α) (p : Output × State) : Prop :=
  e'.exec p = e.exec p ∨ Tells file V ends (e.exec p)

theorem Unless.refl (e : Emission α) : Unless file V ends e e p := Or.inl rfl

/-- Handlings that go on with the results of others. -/
theorem Unless.bind {e e' : Emission α} {k k' : α → Emission β} (he : Unless file V false e e' p)
    (hk : ∀ x q, e.exec p = (.ok x, q) → Unless file V' ends (k x) (k' x) q)
    (hV : ∀ x q, e.exec p = (.ok x, q) → V x → Tells file V' ends ((k x).exec q)) :
    Unless file V' ends (e >>= k) (e' >>= k') p := by
  rcases hexec : e.exec p with ⟨r, q⟩
  rcases he with heq | ⟨f, hr, hf, hopen⟩ | ⟨x, hr, hx⟩ | ⟨hends, -⟩
  · rw [hexec] at heq
    cases r with
    | ok x =>
      rw [Unless, exec_bind_of_ok hexec, exec_bind_of_ok heq]
      exact hk x q hexec
    | error f =>
      rw [Unless, exec_bind_of_error hexec, exec_bind_of_error heq]
      exact Or.inl rfl
  · rw [hexec] at hr hopen
    cases hr
    rw [Unless, exec_bind_of_error hexec]
    exact Or.inr (Or.inl ⟨f, rfl, hf, hopen⟩)
  · rw [hexec] at hr
    cases hr
    rw [Unless, exec_bind_of_ok hexec]
    exact Or.inr (hV x q hexec hx)
  · cases hends

/-- Handlings that go on with the result of the same one. -/
theorem Unless.andThen {e : Emission α} {k k' : α → Emission β}
    (hk : ∀ x q, e.exec p = (.ok x, q) → Unless file V' ends (k x) (k' x) q) :
    Unless file V' ends (e >>= k) (e >>= k') p :=
  (Unless.refl (V := nothing) e).bind hk fun _ _ _ h => h.elim

/-- Handlings that go on with the result of the same action. -/
theorem Unless.act {act : Act α} {k k' : α → Emission β}
    (hk : ∀ x s', act.exec p.2 = (.ok x, s') → Unless file V' ends (k x) (k' x) (p.1, s')) :
    Unless file V' ends (liftM act >>= k) (liftM act >>= k') p := by
  refine .andThen fun x q hq => ?_
  rw [exec_monadLift] at hq
  obtain ⟨hx, rfl⟩ := Prod.mk.inj hq
  exact hk x _ (Prod.ext hx rfl)

/-- Handlings that go on with the result of the same computation. -/
theorem Unless.require {x : Except Cause α} {k k' : α → Emission β}
    (hk : ∀ y, Unless file V' ends (k y) (k' y) p) :
    Unless file V' ends (Emission.require x >>= k) (Emission.require x >>= k') p := by
  refine .andThen fun y q hq => ?_
  rw [exec_require] at hq
  cases x with
  | ok z =>
    cases hq
    exact hk y
  | error c => cases hq

/-- Handlings that go on with the same nested block. -/
theorem Unless.fresh {naming : Naming} {args : List Expr} {kind : Bool} {k k' : Block → Emission β}
    (hk : ∀ b s', b.inMacro = kind → Unless file V' ends (k b) (k' b) (p.1, s')) :
    Unless file V' ends (liftM (Block.fresh naming args kind) >>= k)
      (liftM (Block.fresh naming args kind) >>= k') p := by
  refine .act fun b s' hb => hk b s' ?_
  rw [Block.exec_fresh] at hb
  rw [← Except.ok.inj (Prod.mk.inj hb).1]

end Emission

open Emission (Unless)

/-- What a nested block gives: tokens of which none before the last ends the block. -/
def Block.Orders (b : Block) (ts : List Token) : Prop := ∀ t ∈ ts.dropLast, t.isTerminal b.inMacro = false

/-- Two runners assemble blocks in the same way, unless what the first one gives tells of a file. It does so of
every block that begins with the dependency on the file. -/
structure Runner.Unless (file : Text) (run run' : Runner) : Prop where
  /-- Blocks are assembled in the same way. -/
  same : ∀ b body s, (run' b body).run s = (run b body).run s ∨ AnyTells file ((run b body).run s).1
  /-- Blocks that begin with the dependency. -/
  begins : ∀ b loc rest s, AnyTells file ((run b (.dependency loc file :: rest)).run s).1
  /-- Nested blocks are expanded. -/
  finishes : Runner.Finishes run
  /-- What is terminal comes last. -/
  orders : ∀ (b : Block) body s, b.Orders ((run b body).run s).1

/-- A block is assembled with other included files: what is found is the same apart from where a file is found, and
the blocks nested in it are assembled in the same way, unless they tell of that file. -/
structure Workbench.Unless (file : Text) (w : Workbench) (find' : Includer) (other : Option Runner) : Prop where
  /-- Included files. -/
  includer : ∃ find, w.assembler.includer = some find ∧ find.Apart file find'
  /-- Nested blocks. -/
  runner : ∀ run, w.runner = some run → ∃ run', other = some run' ∧ Runner.Unless file run run'

section Expansion

variable {w : Workbench} {find' : Includer} {other : Option Runner} {p : Output × State} {ends : Bool}

/-- Nested blocks are expanded. -/
theorem Workbench.Unless.finishes (hw : w.Unless file find' other) : w.Finishes := by
  intro run hrun
  obtain ⟨run', -, hunless⟩ := hw.runner run hrun
  exact hunless.finishes

/-- Where no more blocks may be nested the run fails. -/
theorem Workbench.tells_requireRunner {α : Type} {V : α → Prop} (hrunner : w.runner = none)
    (hopen : p.1.closed = false) (k : Runner → Emission α) :
    Emission.Tells file V ends ((w.requireRunner >>= k).exec p) := by
  refine Or.inl ⟨.report (.fatal Location.none
    ("Maximum nesting depth of " ++ Text.ofNat w.assembler.maxDepth ++ " exceeded")), ?_, rfl, ?_⟩
  all_goals rw [Workbench.requireRunner, hrunner]
  · rfl
  · exact hopen

/-- Nested blocks are assembled by the runners. -/
theorem Workbench.Unless.requireRunner {α : Type} {V : α → Prop} {k k' : Runner → Emission α}
    (hw : w.Unless file find' other) (hopen : p.1.closed = false)
    (hk : ∀ run run' : Runner, Runner.Unless file run run' → Emission.Unless file V ends (k run) (k' run') p) :
    Emission.Unless file V ends (w.requireRunner >>= k) ((w.including find' other).requireRunner >>= k') p := by
  cases hrunner : w.runner with
  | none => exact Or.inr (Workbench.tells_requireRunner hrunner hopen k)
  | some run =>
    obtain ⟨run', hother, hunless⟩ := hw.runner run hrunner
    have hleft : w.requireRunner = pure run := by rw [Workbench.requireRunner, hrunner]
    have hright : (w.including find' other).requireRunner = pure run' := by
      rw [Workbench.requireRunner, Workbench.including, hother]
    rw [hleft, hright]
    exact hk run run' hunless

/-- A nested block is assembled. -/
theorem Runner.Unless.perform {run run' : Runner} (hrun : Runner.Unless file run run') (b : Block)
    (body : List Token) :
    Emission.Unless file (fun ts => b.Orders ts ∧ AnyTells file ts) false (Emission.perform (run b body))
      (Emission.perform (run' b body)) p := by
  refine (hrun.same b body p.2).imp (fun heq => ?_) fun htells =>
    Or.inr (Or.inl ⟨_, rfl, hrun.orders b body p.2, htells⟩)
  rw [Emission.exec_perform, Emission.exec_perform, heq]

namespace Expand

/-- What is dropped tells nothing. -/
theorem not_tells_of_isDropped {macroCall : Bool} {t : Token} (h : isDropped macroCall t = true) :
    ¬ t.Tells file := by
  cases t with
  | exitMacro => rintro (h | h) <;> cases h
  | _ => cases h

/-- The output of a nested block takes its place. -/
theorem tells_splice {b : Block} {macroCall : Bool} (hfits : Fits inMacro macroCall b) (hp : p.1.Ready inMacro)
    {ts : List Token} (hts : b.Orders ts) (h : AnyTells file ts) :
    ((splice macroCall ts).exec p).2.1.Tells file := by
  obtain ⟨t, ht, htells⟩ := h
  rw [splice, Emission.exec_emitItems, Output.Tells, tokens_splice hfits hp hts]
  refine ⟨t, List.mem_append_right _ (List.mem_filter.2 ⟨ht, ?_⟩), htells⟩
  cases hdropped : isDropped macroCall t with
  | false => rfl
  | true => exact absurd htells (not_tells_of_isDropped hdropped)

/-- What follows the statements of a nested block. -/
theorem retains_close (b : Block) : Emission.Retains file (do
    if !(← Emission.isClosed) then Emission.emitAll (← Emission.perform (account b.nested))
    Act.modifyScope Scope.unnest : Emission PUnit) := by
  have hunnest : Emission.Retains file (liftM (Act.modifyScope Scope.unnest) : Emission PUnit) := .silent (.act _)
  refine .bind (.silent fun _ => rfl) fun closed => ?_
  cases closed with
  | true => exact hunnest
  | false => exact .bind (.silent (.perform _)) fun _ => .bind (.emitItems _) fun _ => hunnest

/-- A nested block is assembled and accounted for. -/
theorem retains_expand (run : Runner) (b : Block) (scope : Scope) (body : List Token) (macroCall : Bool) :
    Emission.Retains file (expand run b scope body macroCall) :=
  .bind (.silent (.act _)) fun _ => .bind (.silent (.perform _)) fun _ =>
    .bind (.emitItems _) fun _ => retains_close b

/-- A nested block is assembled and accounted for. -/
theorem unless_expand {run run' : Runner} (hrun : Runner.Unless file run run') {b : Block} {macroCall : Bool}
    (hfits : Fits inMacro macroCall b) {o : Output} (ho : o.Ready inMacro) (scope : Scope) (body : List Token)
    (s : State) :
    Unless file Emission.nothing true (expand run b scope body macroCall) (expand run' b scope body macroCall)
      (o, s) := by
  refine .act fun _ s _ => (hrun.perform b body).bind (fun _ _ _ => .refl _) fun ts q hq hts => ?_
  have hspliced := tells_splice (p := q) hfits (by cases hq; exact ho) hts.1 hts.2
  refine Or.inr (Or.inr ⟨rfl, ?_⟩)
  rw [splice] at hspliced ⊢
  rw [Emission.exec_bind_of_ok (Emission.exec_emitItems _ q)]
  exact retains_close b _ hspliced

/-- A file is assembled as a block. -/
theorem unless_included (hw : w.Unless file find' other) (hp : p.1.Ready w.block.inMacro) (body : List Token) :
    Unless file Emission.nothing true
      (do
        let run ← w.requireRunner
        let b ← Block.fresh w.assembler.naming w.around.args w.block.inMacro
        splice false (← Emission.perform (run b body)))
      (do
        let run ← (w.including find' other).requireRunner
        let b ← Block.fresh w.assembler.naming w.around.args w.block.inMacro
        splice false (← Emission.perform (run b body))) p := by
  refine hw.requireRunner hp.isOpen fun run run' hrun => .fresh fun b s hb => ?_
  refine (hrun.perform b body).bind (fun _ _ _ => .refl _) fun ts q hq hts => Or.inr (Or.inr ⟨rfl, ?_⟩)
  cases hq
  exact tells_splice (fits_same hb) hp hts.1 hts.2

/-- A block that begins with the dependency on a file tells of it. -/
theorem tells_included (hw : w.Unless file find' other) (hp : p.1.Ready w.block.inMacro) (l : Location)
    (rest : List Token) :
    Emission.Tells file Emission.nothing true ((do
      let run ← w.requireRunner
      let b ← Block.fresh w.assembler.naming w.around.args w.block.inMacro
      splice false (← Emission.perform (run b (.dependency l file :: rest)))).exec p) := by
  cases hrunner : w.runner with
  | none => exact Workbench.tells_requireRunner hrunner hp.isOpen _
  | some run =>
    obtain ⟨run', -, hunless⟩ := hw.runner run hrunner
    have hrequire : w.requireRunner.exec p = (.ok run, p) := by
      rw [Workbench.requireRunner, hrunner]
      rfl
    rw [Emission.exec_bind_of_ok hrequire,
      Emission.exec_bind_of_ok (q := (p.1, { p.2 with supply := p.2.supply + 1 }))
        (by rw [Emission.exec_monadLift, Block.exec_fresh]),
      Emission.exec_bind_of_ok (Emission.exec_perform _ _)]
    refine Or.inr (Or.inr ⟨rfl, ?_⟩)
    exact tells_splice (fits_same rfl) hp (hunless.orders _ _ _) (hunless.begins _ l rest _)

/-- INCLUDE. -/
theorem unless_inclusion (hw : w.Unless file find' other) (hp : p.1.Ready w.block.inMacro) (loc : Location)
    (path : Expr) (loader : Option Expr) :
    Unless file Emission.nothing true (inclusion w loc path loader)
      (inclusion (w.including find' other) loc path loader) p := by
  obtain ⟨find, hincluder, hapart⟩ := hw.includer
  have hincluder' : (w.including find' other).assembler.includer = some find' := rfl
  rw [inclusion, inclusion, hincluder, hincluder']
  dsimp only
  split
  · exact .refl _
  · refine .require fun path => ?_
    cases loader
    case' none => refine Unless.require (x := .ok Text.empty) fun loader => ?_
    case' some e => refine .require fun loader => ?_
    -- the same is found, or the file is
    all_goals
      rcases hapart loc path loader with heq | ⟨l, rest, heq⟩
      · rw [heq]
        cases find loc path loader with
        | error d => exact .refl _
        | ok body => exact unless_included hw hp body
      · rw [heq]
        exact Or.inr (tells_included hw hp l rest)

/-- A macro call. -/
theorem unless_call (hw : w.Unless file find' other) (hp : p.1.Ready inMacro) (strict : Bool) (item : Item)
    (d : Dispatch) :
    Unless file Emission.nothing true (call w strict item d) (call (w.including find' other) strict item d)
      p := by
  refine .act fun scope s hs => ?_
  split
  · exact .refl _
  · split
    · exact .refl _
    · refine .act fun _ s hs => ?_
      split
      · exact .refl _
      · refine hw.requireRunner hp.isOpen fun run run' hrun => .fresh fun b s' hb => ?_
        exact .act fun scope s hs => .require fun scope => unless_expand hrun (fits_call hb) hp scope _ _

end Expand

namespace Replay

/-- One iteration. -/
theorem unless_turn (hw : w.Unless file find' other) (hp : p.1.Ready w.block.inMacro) (l : Loop) (k : Nat)
    (value : Option Expr) :
    Unless file Emission.nothing true (l.turn w k value) (l.turn (w.including find' other) k value) p := by
  refine hw.requireRunner hp.isOpen fun run run' hrun => .fresh fun b s' hb => ?_
  refine .act fun scope s hs => .require fun scope => ?_
  exact Expand.unless_expand hrun (Expand.fits_same hb) hp scope _ _

/-- One iteration. -/
theorem retains_turn (l : Loop) (k : Nat) (value : Option Expr) : Emission.Retains file (l.turn w k value) := by
  refine .bind (.silent Workbench.silent_requireRunner) fun run => .bind (.silent (.act _)) fun b => ?_
  refine .bind (.silent (.act _)) fun scope => .bind (.silent (.require _)) fun scope => ?_
  exact Expand.retains_expand run b scope _ false

/-- A turn before others, unless the output is closed. -/
theorem retains_step {turn rest : Emission PUnit} (hturn : Emission.Retains file turn)
    (hrest : Emission.Retains file rest) :
    Emission.Retains file (do if ← Emission.isClosed then return ⟨⟩ else turn; rest) := by
  refine .bind (.silent fun _ => rfl) fun closed => ?_
  split
  · exact .silent (.pure _)
  · exact .bind hturn fun _ => hrest

/-- A turn before others, unless the output is closed. -/
theorem unless_step {turn turn' rest rest' : Emission PUnit} (hp : p.1.Ordered inMacro fun _ => True)
    (hturn : p.1.Ready inMacro → Unless file Emission.nothing true turn turn' p)
    (hemits : Emission.Emits inMacro (fun _ => True) turn)
    (hrest : ∀ q : Output × State, (q.1.Ordered inMacro fun _ => True) →
      Unless file Emission.nothing true rest rest' q)
    (hretains : Emission.Retains file rest) :
    Unless file Emission.nothing true (do if ← Emission.isClosed then return ⟨⟩ else turn; rest)
      (do if ← Emission.isClosed then return ⟨⟩ else turn'; rest') p := by
  rw [Unless, Emission.exec_bind_of_ok (Emission.exec_isClosed p),
    Emission.exec_bind_of_ok (Emission.exec_isClosed p)]
  cases hopen : p.1.closed with
  | true => exact Or.inl rfl
  | false =>
    rw [if_neg Bool.false_ne_true, if_neg Bool.false_ne_true]
    have hordered := hemits p hp
    rcases hexec : turn.exec p with ⟨r, q⟩
    rw [hexec] at hordered
    rcases hturn ⟨hp.kind, hopen⟩ with heq | ⟨f, hr, hf, hclosed⟩ | ⟨x, hr, hx⟩ | ⟨-, htells⟩
    · exact Emission.Unless.bind (V := Emission.nothing) (Or.inl heq) (fun x q' hq' => hrest q' (by
        rw [hexec] at hq'
        cases hq'
        exact hordered)) fun _ _ _ h => h.elim
    · rw [hexec] at hr hclosed
      cases hr
      rw [Emission.exec_bind_of_error hexec]
      exact Or.inr (Or.inl ⟨f, rfl, hf, hclosed⟩)
    · exact hx.elim
    · -- what a turn tells of the file stays
      rw [hexec] at htells
      refine Or.inr (Or.inr (Or.inr ⟨rfl, ?_⟩))
      cases r with
      | error f =>
        rw [Emission.exec_bind_of_error hexec]
        exact htells
      | ok x =>
        rw [Emission.exec_bind_of_ok hexec]
        exact hretains q htells

/-- Turns that are counted. -/
theorem unless_times {turn turn' : Nat → Emission PUnit}
    (hturn : ∀ k (q : Output × State), q.1.Ready inMacro →
      Unless file Emission.nothing true (turn k) (turn' k) q)
    (hemits : ∀ k, Emission.Emits inMacro (fun _ => True) (turn k))
    (hretains : ∀ k, Emission.Retains file (turn k))
    (n k : Nat) (p : Output × State) (hp : p.1.Ordered inMacro fun _ => True) :
    Unless file Emission.nothing true (times turn n k) (times turn' n k) p := by
  have htimes : ∀ n k, Emission.Retains file (times turn n k) := by
    intro n
    induction n with
    | zero => exact fun _ => .silent (.pure _)
    | succ n ih => exact fun k => retains_step (hretains k) (ih (k + 1))
  induction n generalizing k p with
  | zero => exact .refl _
  | succ n ih => exact unless_step hp (hturn k p) (hemits k) (ih (k + 1)) (htimes n (k + 1))

/-- Turns for the elements of a list. -/
theorem unless_each {turn turn' : Nat → Expr → Emission PUnit}
    (hturn : ∀ k e (q : Output × State), q.1.Ready inMacro →
      Unless file Emission.nothing true (turn k e) (turn' k e) q)
    (hemits : ∀ k e, Emission.Emits inMacro (fun _ => True) (turn k e))
    (hretains : ∀ k e, Emission.Retains file (turn k e)) (es : List Expr) (k : Nat) (p : Output × State)
    (hp : p.1.Ordered inMacro fun _ => True) :
    Unless file Emission.nothing true (each turn es k) (each turn' es k) p := by
  have heach : ∀ es k, Emission.Retains file (each turn es k) := by
    intro es
    induction es with
    | nil => exact fun _ => .silent (.pure _)
    | cons e rest ih => exact fun k => retains_step (hretains k e) (ih (k + 1))
  induction es generalizing k p with
  | nil => exact .refl _
  | cons e rest ih => exact unless_step hp (hturn k e p) (hemits k e) (ih (k + 1)) (heach rest (k + 1))

/-- DUP, DUPA, DUPC and DUPF. -/
theorem unless_dup (hw : w.Unless file find' other) (hp : p.1.Ordered w.block.inMacro fun _ => True) (strict : Bool)
    (item : Item) (loc : Location) (counter : Option Expr) (iteration : Iteration) (body : List Token) :
    Unless file Emission.nothing true (dup w strict item loc counter iteration body)
      (dup (w.including find' other) strict item loc counter iteration body) p := by
  have hemits : ∀ (l : Loop) k value, Emission.Emits w.block.inMacro (fun _ => True) (l.turn w k value) :=
    emits_turn (fun _ _ => trivial) hw.finishes
  have htimes : ∀ (l : Loop) (value : Nat → Option Expr) n s, Unless file Emission.nothing true
      (times (fun k => l.turn w k (value k)) n 0)
      (times (fun k => l.turn (w.including find' other) k (value k)) n 0) (p.1, s) :=
    fun l value n s => unless_times (fun k q hq => unless_turn hw hq l k (value k)) (fun k => hemits l k (value k))
      (fun k => retains_turn l k (value k)) n 0 (p.1, s) hp
  have heach : ∀ (l : Loop) es s, Unless file Emission.nothing true
      (each (fun k e => l.turn w k (some e)) es 0)
      (each (fun k e => l.turn (w.including find' other) k (some e)) es 0) (p.1, s) :=
    fun l es s => unless_each (fun k e q hq => unless_turn hw hq l k (some e)) (fun k e => hemits l k (some e))
      (fun k e => retains_turn l k (some e)) es 0 (p.1, s) hp
  cases iteration with
  | count n =>
    rw [dup, dup]
    split
    · exact .require fun n => .act fun counter s _ => htimes _ (fun _ => none) _ s
    · exact .refl _
  | list element items =>
    rw [dup, dup]
    split
    · exact .refl _
    · exact .act fun counter s _ => .act fun element s _ => heach _ items s
  | characters element strings =>
    rw [dup, dup]
    split
    · exact .refl _
    · exact .act fun counter s _ => .act fun element s _ => .require fun items => heach _ items s
  | sequence element first last step =>
    rw [dup, dup, sequence, sequence]
    split
    · exact .refl _
    · refine .require fun start => .require fun stride => ?_
      split
      · exact .refl _
      · refine .require fun stop => ?_
        split
        · exact .refl _
        · refine .act fun counter s _ => .act fun element s _ => ?_
          rw [walk_eq_times, walk_eq_times]
          exact htimes _ _ _ s

end Replay

namespace Conditional

/-- An arm tells of a file: the dependency is in its body, or it failed. -/
def Fork.Tells (file : Text) (fork : Fork) : Prop :=
  file ∈ Token.allFiles fork.body ∨ ∃ t ∈ fork.messages, t.fails = true

/-- The arm that the output of a nested block makes. -/
theorem tells_of_filter {ts : List Token} (h : AnyTells file ts) (scope : Scope) :
    Fork.Tells file ⟨scope, ts.filter fun t => !t.isMessage, ts.filter Token.isMessage⟩ := by
  obtain ⟨t, ht, hfile | hfails⟩ := h
  · refine Or.inl (Token.mem_allFiles.2 ⟨t, List.mem_filter.2 ⟨ht, ?_⟩, hfile⟩)
    cases hmessage : t.isMessage with
    | false => rfl
    | true =>
      rw [Token.files_of_isMessage hmessage] at hfile
      cases hfile
  · exact Or.inr ⟨t, List.mem_filter.2 ⟨ht, isMessage_of_fails hfails⟩, hfails⟩

/-- The whole output of a nested block. -/
theorem unless_collect {run run' : Runner} (hrun : Runner.Unless file run run') (b : Block) (body : List Token)
    (s : State) :
    (collect run' b body).run s = (collect run b body).run s ∨ AnyTells file ((collect run b body).run s).1 := by
  rw [run_collect, run_collect]
  refine (hrun.same b body s).imp (fun heq => by rw [heq]) fun htells => ?_
  split
  · exact htells
  · exact htells.mono (List.subset_append_left _ _)

/-- An arm is assembled against a copy of the scope. -/
theorem unless_prospect (hw : w.Unless file find' other) (hopen : p.1.closed = false) (body : List Token) :
    Unless file (Fork.Tells file) false (prospect w body) (prospect (w.including find' other) body) p := by
  refine .act fun scope s _ => hw.requireRunner hopen fun run run' hrun => .fresh fun b s _ => .act fun _ s _ => ?_
  have hcollect : Unless file (AnyTells file) false (Emission.perform (collect run b body))
      (Emission.perform (collect run' b body)) (p.1, s) := by
    refine (unless_collect hrun b body s).imp (fun heq => ?_) fun htells => Or.inr (Or.inl ⟨_, rfl, htells⟩)
    rw [Emission.exec_perform, Emission.exec_perform, heq]
  refine hcollect.bind (fun _ _ _ => .refl _) fun ts q hq hts => ?_
  cases hq
  have hreap := exec_reap scope ((collect run b body).run s).1 (p.1, ((collect run b body).run s).2)
  cases hfirst : firstFatal? ((collect run b body).run s).1 with
  | some d =>
    rw [hfirst] at hreap
    refine Or.inl ⟨.report d, congrArg Prod.fst hreap, ?_, ?_⟩
    · exact Token.fails_of_isFatal (t := .message d) (isFatal_of_firstFatal?_eq_some hfirst)
    · exact (congrArg (fun r => r.2.1.closed) hreap).trans hopen
  | none =>
    rw [hfirst] at hreap
    exact Or.inr (Or.inl ⟨_, congrArg Prod.fst hreap, tells_of_filter hts _⟩)

/-- The arms are gone through up to the first that is known to be taken. -/
theorem unless_sift (hw : w.Unless file find' other) (hopen : p.1.closed = false) (otherwise : Option (List Token))
    (clauses : List Clause) :
    Unless file (fun arms : Arms => ∃ arm ∈ arms.forks, arm.2.Tells file) false (sift w otherwise clauses)
      (sift (w.including find' other) otherwise clauses) p := by
  induction clauses generalizing p with
  | nil => exact .refl _
  | cons c rest ih =>
    obtain ⟨test, body⟩ := c
    rw [sift, sift]
    split
    · refine .require fun truth => ?_
      split
      · exact .refl _
      · exact ih hopen
    · have hsilent := silent_prospect (w := w) body p
      refine (unless_prospect hw hopen body).bind (fun fork q hq => ?_) fun fork q hq hfork => ?_
      · rw [hq] at hsilent
        refine (ih (by rwa [hsilent])).bind (fun _ _ _ => .refl _) fun arms q' _ harms => ?_
        obtain ⟨arm, harm, htells⟩ := harms
        exact Or.inr (Or.inl ⟨_, rfl, arm, List.mem_cons_of_mem _ harm, htells⟩)
      · rw [hq] at hsilent
        have hrest := silent_sift (w := w) otherwise rest q
        rcases hsift : (sift w otherwise rest).exec q with ⟨r, q'⟩
        rw [hsift] at hrest
        cases r with
        | ok arms =>
          rw [Emission.exec_bind_of_ok hsift]
          exact Or.inr (Or.inl ⟨_, rfl, _, List.mem_cons_self, hfork⟩)
        | error f =>
          rw [Emission.exec_bind_of_error hsift]
          refine Or.inl ⟨f, rfl, (drastic_sift w otherwise rest).fails hsift, ?_⟩
          rwa [hrest, hsilent]

/-- The arm that is taken otherwise. -/
theorem unless_alternative (hw : w.Unless file find' other) (hopen : p.1.closed = false)
    (otherwise : Option (List Token)) :
    Unless file (fun final : Option Fork => ∃ fork ∈ final, fork.Tells file) false (alternative w otherwise)
      (alternative (w.including find' other) otherwise) p := by
  cases otherwise with
  | none => exact .refl _
  | some body =>
    rw [alternative, alternative, map_eq_pure_bind, map_eq_pure_bind]
    exact (unless_prospect hw hopen body).bind (fun _ _ _ => .refl _)
      fun fork _ _ hfork => Or.inr (Or.inl ⟨_, rfl, fork, rfl, hfork⟩)

/-- Assembling the arm that is taken otherwise fails only with a fatal diagnostic. -/
theorem drastic_alternative (w : Workbench) (otherwise : Option (List Token)) :
    Emission.Drastic (alternative w otherwise) := by
  cases otherwise with
  | none => exact .of_sure fun _ => ⟨_, rfl⟩
  | some body =>
    rw [alternative, map_eq_pure_bind]
    exact .bind (drastic_prospect w body) fun fork => .of_sure fun _ => ⟨_, rfl⟩

/-- The diagnostics of arms are all taken by an open output, and leave it open. -/
theorem ready_messages {forks : List Fork} (hforks : ∀ f ∈ forks, f.IsQuiet) {o : Output} (ho : o.Ready inMacro) :
    (o.pushAll ((messagesOf forks).map .settled)).Ready inMacro ∧
      (o.pushAll ((messagesOf forks).map .settled)).tokens = o.tokens ++ messagesOf forks := by
  have hterminal : ∀ i ∈ (messagesOf forks).map Item.settled, i.token.isTerminal o.inMacro = false := by
    intro i hi
    obtain ⟨t, ht, rfl⟩ := List.mem_map.1 hi
    obtain ⟨f, hf, htf⟩ := List.mem_flatMap.1 ht
    exact (Token.isTerminal_of_isMessage (hforks f hf t htf).1 _).trans (hforks f hf t htf).2
  obtain ⟨hitems, hopen⟩ := Output.items_pushAll ho.isOpen hterminal
  refine ⟨⟨?_, hopen⟩, ?_⟩
  · rw [Output.inMacro_pushAll]
    exact ho.kind
  · rw [Output.tokens, hitems, List.map_append, Item.map_token_settled]
    rfl

/-- The end of an IF that only the linker can decide tells what the arms do. -/
theorem tells_conclude (hp : p.1.Ready inMacro) (loc : Location) (forks : List (Expr × Fork)) {final : Option Fork}
    (hfinal : ∀ fork ∈ final, fork.IsQuiet)
    (h : p.1.Tells file ∨ (∃ arm ∈ forks, file ∈ Token.allFiles arm.2.body) ∨ ∃ fork ∈ final, fork.Tells file) :
    Emission.Tells file Emission.nothing true
      ((do announce final; conclude loc forks final : Emission PUnit).exec p) := by
  have hquiet : ∀ fork ∈ final.toList, fork.IsQuiet := fun fork hfork => hfinal fork (Option.mem_toList.1 hfork)
  obtain ⟨hready, htokens⟩ := ready_messages hquiet hp
  have hannounce : (announce final).exec p =
      (.ok ⟨⟩, (p.1.pushAll ((messagesOf final.toList).map .settled), p.2)) := by
    cases final with
    | none => rfl
    | some fork => rw [announce, Option.toList_some, messagesOf, List.flatMap_singleton, Emission.exec_emitAll]
  rw [Emission.exec_bind_of_ok hannounce, exec_conclude loc forks final _ p.2 rfl]
  -- the IF is emitted unless the scopes cannot be merged
  split
  · exact Or.inl ⟨_, rfl, rfl, hready.isOpen⟩
  · refine Or.inr (Or.inr ⟨rfl, ?_⟩)
    have harms : file ∈ (emitted loc forks final).token.files → ((p.1.pushAll
        ((messagesOf final.toList).map .settled)).push (emitted loc forks final)).Tells file := by
      intro hfile
      rw [Output.Tells, Output.tokens_push hready.isOpen]
      exact ⟨_, List.mem_append_right _ List.mem_cons_self, Or.inl hfile⟩
    rcases h with htells | ⟨arm, harm, hfile⟩ | ⟨fork, hfork, hfile | ⟨t, ht, hfails⟩⟩
    · exact (htells.pushAll _).push _
    · refine harms (List.mem_append_left _ (Token.mem_clauseFiles.2 ⟨_, List.mem_map_of_mem harm, hfile⟩))
    · rw [Option.mem_def] at hfork
      subst hfork
      refine harms (List.mem_append_right _ ?_)
      rw [Option.bind_some, bodyOr]
      split
      · rename_i hempty
        rw [List.isEmpty_iff.1 hempty] at hfile
        exact hfile
      · exact hfile
    · rw [Option.mem_def] at hfork
      subst hfork
      refine Output.Tells.push ⟨t, ?_, Or.inr hfails⟩ _
      rw [htokens, Option.toList_some, messagesOf, List.flatMap_singleton]
      exact List.mem_append_right _ ht

theorem fst_alternative {otherwise : Option (List Token)} {r : Except Failure (Option Fork)} {o : Output}
    {s : State} {q : Output × State} (h : (alternative w otherwise).exec (o, s) = (r, q)) : q.1 = o :=
  (congrArg (fun r => r.2.1) h).symm.trans (silent_alternative otherwise (o, s))

/-- An IF that only the linker can decide, once its arms are assembled. -/
theorem unless_undecided (hw : w.Unless file find' other) (hp : p.1.Ready w.block.inMacro) (loc : Location)
    {arms : Arms} (harms : arms.IsQuiet) :
    Unless file Emission.nothing true (undecided w loc arms) (undecided (w.including find' other) loc arms) p := by
  obtain ⟨hready, -⟩ := ready_messages (List.forall_mem_map.2 harms) hp
  rw [undecided_eq, undecided_eq]
  refine .andThen fun _ q hq => ?_
  rw [exec_forM_messages] at hq
  cases hq
  refine (unless_alternative hw hready.isOpen _).bind (fun _ _ _ => .refl _) fun final q hq hfinal => ?_
  rw [← fst_alternative hq] at hready
  exact tells_conclude hready loc arms.forks (gives_alternative arms.otherwise _ final (by rw [hq]))
    (Or.inr (Or.inr hfinal))

/-- An IF that only the linker can decide tells what one of its arms does. -/
theorem tells_undecided (hp : p.1.Ready w.block.inMacro) (loc : Location) {arms : Arms} (harms : arms.IsQuiet)
    {arm : Expr × Fork} (harm : arm ∈ arms.forks) (htells : arm.2.Tells file) :
    Emission.Tells file Emission.nothing true ((undecided w loc arms).exec p) := by
  obtain ⟨hready, htokens⟩ := ready_messages (List.forall_mem_map.2 harms) hp
  rw [undecided_eq, Emission.exec_bind_of_ok (exec_forM_messages arms.forks p)]
  rcases hexec : (alternative w arms.otherwise).exec
    (p.1.pushAll ((messagesOf (arms.forks.map Prod.snd)).map .settled), p.2) with ⟨r, q⟩
  rw [← fst_alternative hexec] at hready htokens
  cases r with
  | error f =>
    rw [Emission.exec_bind_of_error hexec]
    exact Or.inl ⟨f, rfl, (drastic_alternative w arms.otherwise).fails hexec, hready.isOpen⟩
  | ok final =>
    rw [Emission.exec_bind_of_ok hexec]
    refine tells_conclude hready loc arms.forks (gives_alternative arms.otherwise _ final (by rw [hexec])) ?_
    rcases htells with hfile | ⟨t, ht, hfails⟩
    · exact Or.inr (Or.inl ⟨arm, harm, hfile⟩)
    · -- the failure is emitted before the IF
      refine Or.inl ⟨t, ?_, Or.inr hfails⟩
      rw [htokens]
      exact List.mem_append_right _ (List.mem_flatMap.2 ⟨arm.2, List.mem_map_of_mem harm, ht⟩)

/-- IF. -/
theorem unless_assemble (hw : w.Unless file find' other) (hp : p.1.Ready w.block.inMacro) (loc : Location)
    (clauses : List Clause) (otherwise : Option (List Token)) :
    Unless file Emission.nothing true (assemble w loc clauses otherwise)
      (assemble (w.including find' other) loc clauses otherwise) p := by
  -- going through the arms emits nothing
  have hsift : ∀ arms q, (sift w otherwise clauses).exec p = (.ok arms, q) →
      q.1.Ready w.block.inMacro ∧ arms.IsQuiet := by
    intro arms q hq
    have hsilent := silent_sift (w := w) otherwise clauses p
    rw [hq] at hsilent
    exact ⟨by rwa [← hsilent] at hp, gives_sift otherwise clauses p arms (by rw [hq])⟩
  refine (unless_sift hw hp.isOpen otherwise clauses).bind (fun arms q hq => ?_) fun arms q hq harms => ?_
  all_goals obtain ⟨hready, hquiet⟩ := hsift arms q hq
  · split
    · exact unless_undecided hw hready loc hquiet
    · split
      · exact .refl _
      · refine hw.requireRunner hready.isOpen fun run run' hrun => .fresh fun b s' hb => .act fun scope s hs => ?_
        exact Expand.unless_expand hrun (Expand.fits_same hb) hready _ _ _
  · obtain ⟨arm, harm, htells⟩ := harms
    have hsome : (!arms.forks.isEmpty) = true := by
      rw [Bool.not_eq_true', List.isEmpty_eq_false_iff]
      exact List.ne_nil_of_mem harm
    rw [if_pos hsome]
    exact tells_undecided hready loc hquiet harm htells

end Conditional

namespace Pass

variable {item : Item} {s : State}

/-- What two steps emit for an item is the same, unless the first one tells of a file. Then all that it emits is
expanded. -/
def Unless (file : Text) (inMacro : Bool) (p p' : Pass) : Prop :=
  ∀ item s, (p'.handle inMacro item).run s = (p.handle inMacro item).run s ∨
    ((p.handle inMacro item).run s).1.Tells file ∧ ((p.handle inMacro item).run s).1.Ordered inMacro Item.IsExpanded

/-- What an item is handled to in one way is the same in another, unless the first one tells of a file. Then all
that it emits is expanded. -/
def Shows (file : Text) (inMacro : Bool) (e e' : Emission PUnit) (s : State) : Prop :=
  e'.exec (Output.empty inMacro, s) = e.exec (Output.empty inMacro, s) ∨
    Emission.Tells file Emission.nothing true (e.exec (Output.empty inMacro, s)) ∧
      (e.exec (Output.empty inMacro, s)).2.1.Ordered inMacro Item.IsExpanded

/-- Steps that handle every item so do so. -/
theorem unless_of_forall {p p' : Pass} (h : ∀ item s, Shows file inMacro (p item) (p' item) s) :
    Pass.Unless file inMacro p p' := by
  intro item s
  rw [handle, handle]
  split
  · exact Or.inl rfl
  · rw [Emission.run_output, Emission.run_output]
    refine (h item s).imp (fun heq => by rw [heq]) ?_
    rintro ⟨htells, hordered⟩
    rcases hexec : (p item).exec (Output.empty inMacro, s) with ⟨r, q⟩
    rw [hexec] at htells hordered
    rcases htells with ⟨f, hr, hf, hopen⟩ | ⟨x, -, hx⟩ | ⟨-, htells⟩
    · cases hr
      refine ⟨?_, hordered.push rfl⟩
      rw [Output.Tells, Output.tokens_push hopen]
      refine ⟨_, List.mem_append_right _ List.mem_cons_self, Or.inr ?_⟩
      exact (Failure.fails_toDiagnostic _ f).trans hf
    · exact hx.elim
    · cases r with
      | ok _ => exact ⟨htells, hordered⟩
      | error f => exact ⟨htells.push _, hordered.push rfl⟩

/-- A handling that emits only what is expanded. -/
theorem Shows.of_emits {e e' : Emission PUnit}
    (h : Emission.Unless file Emission.nothing true e e' (Output.empty inMacro, s))
    (hemits : Emission.Emits inMacro Item.IsExpanded e) : Shows file inMacro e e' s :=
  h.imp_right fun htells => ⟨htells, hemits _ .empty⟩

/-- A handling that passes on the item, which tells nothing, or emits only what is expanded. -/
theorem Shows.of_emitItem {e e' : Emission PUnit} (item : Item) (hitem : ¬ item.token.Tells file)
    (h : Emission.Unless file Emission.nothing true e e' (Output.empty inMacro, s))
    (hcases : e.exec (Output.empty inMacro, s) = (.ok ⟨⟩, ((Output.empty inMacro).push item, s)) ∨
      (e.exec (Output.empty inMacro, s)).2.1.Ordered inMacro Item.IsExpanded) : Shows file inMacro e e' s := by
  refine h.imp_right fun htells => ⟨htells, hcases.resolve_left fun hpass => ?_⟩
  rw [hpass] at htells
  rcases htells with ⟨f, hr, -⟩ | ⟨x, -, hx⟩ | ⟨-, t, ht, htold⟩
  · cases hr
  · exact hx
  · rw [Output.tokens_push rfl] at ht
    rw [List.mem_singleton.1 ht] at htold
    exact hitem htold

/-- A macro call. -/
theorem shows_dispatch (hw : w.Unless file find' other) (strict pending : Bool) (d : Dispatch) (s : State) :
    Shows file w.block.inMacro (Expand.call w strict ⟨.dispatch d, pending⟩ d)
      (Expand.call (w.including find' other) strict ⟨.dispatch d, pending⟩ d) s := by
  have hspare : (Item.message default).IsExpanded := rfl
  refine .of_emitItem ⟨.dispatch d, pending⟩ (by rintro (h | h) <;> cases h)
    (Expand.unless_call hw ⟨rfl, rfl⟩ strict _ d)
    ((Expand.call_cases w strict ⟨.dispatch d, pending⟩ d _).imp id fun hsame => ?_)
  rw [hsame (.message default)]
  exact Expand.emits_call (fun _ h => h) hw.finishes strict hspare d _ .empty

/-- A DUP. -/
theorem shows_loop (hw : w.Unless file find' other) (strict pending : Bool) (loc : Location)
    (counter : Option Expr) (iteration : Iteration) (body : List Token) (s : State) :
    Shows file w.block.inMacro
      (Replay.dup w strict ⟨.dup loc counter iteration body, pending⟩ loc counter iteration body)
      (Replay.dup (w.including find' other) strict ⟨.dup loc counter iteration body, pending⟩ loc counter iteration
        body) s := by
  have hspare : (Item.message default).IsExpanded := rfl
  refine .of_emitItem ⟨.dup loc counter iteration body, pending⟩ (by rintro (h | h) <;> cases h)
    (Replay.unless_dup hw .empty strict _ loc counter iteration body)
    ((Replay.dup_cases w strict ⟨.dup loc counter iteration body, pending⟩ loc counter iteration body).imp
      (fun hpass => ?_) fun hsame => ?_)
  · rw [hpass, Emission.exec_emitItem]
  · rw [hsame (.message default)]
    exact Replay.emits_dup (fun _ h => h) hw.finishes (fun _ => hspare) loc counter iteration body _ .empty

/-- Names are bound, and what can be expanded is. -/
theorem unless_localize (hw : w.Unless file find' other) :
    Pass.Unless file w.block.inMacro (localize w) (localize (w.including find' other)) := by
  refine unless_of_forall fun item s => ?_
  have hready : (Output.empty w.block.inMacro).Ready w.block.inMacro := ⟨rfl, rfl⟩
  have hP : Item.Admits Item.IsExpanded := fun _ h => h
  obtain ⟨token, pending⟩ := item
  cases token with
  | inclusion loc path loader =>
    exact .of_emits (Expand.unless_inclusion hw hready loc path loader)
      (Expand.emits_inclusion hP hw.finishes loc path loader)
  | cond loc clauses otherwise assembled =>
    cases assembled with
    | true => exact Or.inl rfl
    | false =>
      exact .of_emits (Conditional.unless_assemble hw hready loc clauses otherwise)
        (Conditional.emits_assemble hP hw.finishes loc clauses otherwise)
  | dispatch d => exact shows_dispatch hw false pending d s
  | dup loc counter iteration body => exact shows_loop hw false pending loc counter iteration body s
  | declare loc how names => cases how <;> exact Or.inl rfl
  | assign loc how name value => cases how <;> exact Or.inl rfl
  | _ => exact Or.inl rfl

/-- What is left is expanded. -/
theorem unless_expandRest (hw : w.Unless file find' other) :
    Pass.Unless file w.block.inMacro (expandRest w) (expandRest (w.including find' other)) := by
  refine unless_of_forall fun item s => ?_
  obtain ⟨token, pending⟩ := item
  cases token with
  | dispatch d => exact shows_dispatch hw true pending d s
  | dup loc counter iteration body => exact shows_loop hw true pending loc counter iteration body s
  | _ => exact Or.inl rfl

end Pass

end Expansion

end MacroAsm
