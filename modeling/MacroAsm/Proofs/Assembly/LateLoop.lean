import MacroAsm.Proofs.Assembly.Around

/-!
# Expanding a loop late

A DUP whose count is bound behind it waits for the third stage, and a DUP whose count is written out is expanded by
the second one. Both stand for so many turns over the body (`Entry.standsFor_late`, `Entry.standsFor_dup`): a solution
of the definitions behind the loop tells what its turns write, whether they are assembled before these definitions or
after them.

Main statement: `Assembler.assemble_lateDup`. The two programs write the same if neither reports a failure, apart
from locations and the names that values were resolved through. What names stand for must not change behind the DUP,
as only EQU and data follow it: a SET there is seen by the turns of the late one (`Assembler.exists_lateDup_ne`).
-/

namespace MacroAsm

namespace Entry

open Eval (PortableNames)

section Loop

variable {w : Workbench} {run : Runner} {body after : List Token} (hargs : w.around.args = [])
  (hrun : w.runner = some run) (hdata : run.AssemblesData) (hbody : ∀ t ∈ body, t.isDatum = true)
  (hafter : ∀ token ∈ after, token.isEquate = true ∨ token.isData = true)

theorem isPassed_dup (w : Workbench) (loc : Location) (count : Expr) (body : List Token) :
    w.IsPassed (.dup loc none (.count count) body) := ⟨rfl, rfl, fun _ => rfl⟩

include hargs hrun hdata hbody hafter

/-- A loop whose count is written out is assembled over what names stand for at the loop. -/
theorem standsFor_dup (loc l : Location) (c : Int64) (via : Text) :
    StandsFor w (fun _ => True) (.dup loc none (.count (.number l c via)) body) after
      (List.replicate c.toInt.toNat body).flatten := by
  refine standsFor_direct hargs hbody hafter (isPassed_dup w loc _ body) (fun s => ?_) fun b pending hradix =>
    Replay.replays_dup hrun hdata (fun t ht => Token.isData_of_isDatum (hbody t ht)) hradix false
      ⟨.dup loc none (.count (.number l c via)) body, pending⟩ loc l c via
  rw [Token.reduce]
  rfl

/-- A loop whose count is bound behind it is assembled over what names stand for in the end. -/
theorem standsFor_late (loc nameLoc : Location) {defLoc defName l : Location} {name via : Text} {c : Int64}
    (hcount : .assign defLoc .equate (.identifier defName name) (.number l c via) ∈ after) :
    StandsFor w (fun b => (b name).isSet = false) (.dup loc none (.count (.identifier nameLoc name)) body) after
      (List.replicate c.toInt.toNat body).flatten := by
  intro s s' t t' kept hreached hunset hfeed
  have hfinish : ∀ b items', EntersAll w.around s.scope.radix s.scope.binding after items' b → ∀ items : List Item,
      items = [⟨.dup loc none (.count (.identifier nameLoc name)) body, true⟩] → ∀ i ∈ items,
      i.token.isMessage = false → Adds b (finishOne w i) fun ts => ∃ items tss,
        Replay.WrittenTimes w.around.args b body c.toInt.toNat items ∧
        List.Forall₂ (fun i ts => Finishes w.around (b Scope.radixName).radix b (.settled i.token) ts) items tss ∧
        ts = tss.flatten := by
    rintro b items' henters items rfl i hi - t s' ht hs
    rw [List.mem_singleton.1 hi]
    have hradix' : (b Scope.radixName).isSet = true := by
      rw [henters.eq_of_isSet hreached.radix]
      exact hreached.radix
    exact advances_finish_late ht (fun l via => Replay.replays_dup hrun hdata
      (fun t ht => Token.isData_of_isDatum (hbody t ht)) hradix' false _ loc l c via) (henters.number hcount).2 hs
  refine (writesAround hreached hafter (advances_bind_late w hreached.running loc nameLoc body hunset) hfinish
    hfeed).imp_right fun h => ⟨_, ?_, h⟩
  rintro g b dom items ts hdom hg henters ⟨_, tss, rfl, hfinishes, rfl⟩
  obtain ⟨hsolves, hrest⟩ := EntersAll.solved hargs hg henters
  obtain ⟨ts, rfl, ⟨turns, tss, hwritten, hturns, rfl⟩⟩ := exists_of_forall₂_singleton hfinishes
  obtain ⟨tss', hkept', hproducts⟩ := Finishes.products (List.forall₂_map_left_iff.2 hturns)
  rw [List.filter_map, henters.eq_of_isSet hreached.radix] at hkept'
  have hargs' : ∀ a ∈ w.around.args, a.isPortable false = true := by simp [hargs]
  -- nothing in the turns is evaluated again, but names stand for what they do in the end
  have hmark : ∀ t, (Item.settled t).token = t := fun _ => rfl
  obtain ⟨tss'', hwrites, hproducts'⟩ := writes_of_writtenTimes hmark hsolves hrest hargs hdom hsolves
    (henters.portableNames hargs' hreached.names) (by rw [henters.eq_of_isSet hreached.radix]) (Or.inr hrest)
    (fun _ => rfl) hbody hwritten hkept'
  exact ⟨tss'', hwrites, by rw [List.flatten_singleton, hproducts, hproducts']⟩

end Loop

end Entry

open Entry in
/-- A DUP over data writes the same whether its count is written out or bound to the same number by an EQU behind it,
if neither run reports a failure, apart from diagnostics, locations and the names that values were resolved through.
SET and RADIX may precede the DUP, and EQU and data may follow it. -/
theorem Assembler.assemble_lateDup (a : Assembler) (scope : Scope) {before body after : List Token}
    {loc nameLoc defLoc defName l l' : Location} {name via via' : Text} {c : Int64}
    (hradix : (scope.binding Scope.radixName).isSet = true) (hnames : Eval.PortableNames scope.binding)
    (hbefore : ∀ t ∈ before, t.isSequential = true) (hbody : ∀ t ∈ body, t.isDatum = true)
    (hafter : ∀ t ∈ after, t.isEquate = true ∨ t.isData = true)
    (hcount : .assign defLoc .equate (.identifier defName name) (.number l c via) ∈ after)
    (hok : ∀ t ∈ (a.assemble scope
      (before ++ .dup loc none (.count (.identifier nameLoc name)) body :: after)).tokens, t.fails = false)
    (hok' : ∀ t ∈ (a.assemble scope
      (before ++ .dup loc none (.count (.number l' c via')) body :: after)).tokens, t.fails = false) :
    (Token.products (a.assemble scope
        (before ++ .dup loc none (.count (.identifier nameLoc name)) body :: after)).tokens).map Token.erase =
      (Token.products (a.assemble scope
        (before ++ .dup loc none (.count (.number l' c via')) body :: after)).tokens).map Token.erase := by
  obtain ⟨run, hrun, hdata⟩ := exists_assemblesData a
  exact map_erase_around a scope (isPassed_dup _ _ _ _) (isPassed_dup _ _ _ _) hradix hnames hbefore hafter
    (standsFor_late rfl hrun hdata hbody hafter loc nameLoc hcount)
    (standsFor_dup rfl hrun hdata hbody hafter loc l' c via') (fun _ _ _ _ h => (h.number hcount).1) hok hok'

namespace Entry

/-- A DUP over `DB A` and `DW B`. -/
def dupAB (count : Expr) : Token :=
  .dup Location.none none (.count count)
    [.data Location.none .bytes [.identifier Location.none "A"],
      .data Location.none .words [.identifier Location.none "B"]]

end Entry

open Entry in
/-- The count is bound behind the DUP, and so is what the data in it waits for. -/
theorem Assembler.assemble_lateDup_dupAB :
    let late := assemble (.bare 1) Scope.initial ([setA 1] ++ dupAB (.identifier Location.none "N") :: equateBN)
    let direct := assemble (.bare 1) Scope.initial ([setA 1] ++ dupAB (.literal Location.none 2) :: equateBN)
    (Token.products late.tokens).map Token.erase = (Token.products direct.tokens).map Token.erase ∧
      (Token.products direct.tokens).flatMap Token.written = [1, 3, 0, 1, 3, 0] := by
  refine ⟨?_, by decide +kernel⟩
  exact assemble_lateDup _ Scope.initial (by decide +kernel) portableNames_initial (by decide) (by decide)
    (by decide) (List.mem_cons_of_mem _ List.mem_cons_self) (by decide +kernel) (by decide +kernel)

open Entry in
/-- A SET behind the DUP is seen by the turns of the late one, and no diagnostic tells. -/
theorem Assembler.exists_lateDup_ne :
    let late := assemble (.bare 1) Scope.initial
      (setA 1 :: dupAB (.identifier Location.none "N") :: setA 2 :: equateBN)
    let direct := assemble (.bare 1) Scope.initial
      (setA 1 :: dupAB (.literal Location.none 2) :: setA 2 :: equateBN)
    (∀ t ∈ late.tokens, t.isMessage = false) ∧ (∀ t ∈ direct.tokens, t.isMessage = false) ∧
      (Token.products late.tokens).map Token.erase ≠ (Token.products direct.tokens).map Token.erase := by
  intro late direct
  have hlate : ((Token.products late.tokens).map Token.erase).flatMap Token.written = [2, 3, 0, 2, 3, 0] := by
    decide +kernel
  have hdirect : ((Token.products direct.tokens).map Token.erase).flatMap Token.written = [1, 3, 0, 1, 3, 0] := by
    decide +kernel
  refine ⟨by decide +kernel, by decide +kernel, fun hsame => ?_⟩
  rw [hsame, hdirect] at hlate
  cases hlate

end MacroAsm
