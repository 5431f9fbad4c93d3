import Mathlib.Data.List.Forall2
import MacroAsm.Proofs.Cli.Dependencies

/-!
# Exports across files

What a run over several files exports depends on the definitions that the files make, and not on the order of the
files.

* `Cli.weak?_exportAll`: a name is exported weakly if all of its definitions are weak.
* `Cli.count_refused`: of the strong definitions of a name, all but the first are refused.
* `Cli.exec_assembleFiles`: a run over files without a fatal diagnostic enters the definitions of all of them, and
  reports what they say and which definitions are refused.
* `Cli.exports_permuted`: so the exports of such a run, and the number of refusals for each name, are the same for
  every order of the files.
-/

namespace MacroAsm

namespace Reporter

/-- The line that is printed for a diagnostic, which is empty if none is. -/
def line (r : Reporter) (d : Diagnostic) : Text := (r.report d).2

/-- A diagnostic ends the run if it is fatal. -/
theorem fatal_report (r : Reporter) (d : Diagnostic) : (r.report d).1.fatal = (r.fatal || d.isFatal) := by
  have hfatal : d.isFatal = (d.level == .fatal) := rfl
  rw [report, hfatal]
  cases d.level with
  | fatal => simp
  | info => cases r.verbose <;> simp
  | _ => simp

/-- A diagnostic does not change how others are printed. -/
theorem line_report (r : Reporter) (d : Diagnostic) : (r.report d).1.line = r.line := by
  have hline : ∀ r' : Reporter, r'.colour = r.colour → r'.verbose = r.verbose → r'.line = r.line := by
    intro r' hcolour hverbose
    funext d
    simp only [line, report, render, hcolour, hverbose]
    cases d.level with
    | info => cases r.verbose <;> rfl
    | _ => rfl
  rw [report]
  cases d.level with
  | info => cases r.verbose <;> rfl
  | _ => exact hline _ rfl rfl

end Reporter

namespace Cli

/-! ## The table of exports -/

namespace Exports

variable {e e' : Exports} {name : Text} {weak : Bool}

/-- Whether a name is weak after the entry of a name was replaced. -/
theorem lookup_replace (entries : List (Text × Bool)) (name : Text) (weak : Bool) (other : Text) :
    (entries.map fun entry => if entry.1 == name then (name, weak) else entry).lookup other =
      if other = name then (entries.lookup name).map fun _ => weak else entries.lookup other := by
  induction entries with
  | nil => simp
  | cons entry rest ih =>
    obtain ⟨n, w⟩ := entry
    rw [List.map_cons]
    by_cases hn : n = name
    · subst hn
      rw [if_pos (beq_self_eq_true n), List.lookup_cons, List.lookup_cons, List.lookup_cons, ih]
      by_cases ho : other = n
      · simp [ho]
      · simp [ho, beq_false_of_ne ho]
    · rw [if_neg (by simpa using hn), List.lookup_cons, List.lookup_cons, List.lookup_cons, ih,
        beq_false_of_ne (Ne.symm hn)]
      by_cases ho : other = n
      · simp [ho, hn]
      · simp [beq_false_of_ne ho]

/-- Whether a name is weak after another name, or the same, was set. -/
theorem weak?_set (e : Exports) (name : Text) (weak : Bool) (other : Text) :
    (e.set name weak).weak? other = if other = name then some weak else e.weak? other := by
  rw [set]
  split
  · rename_i hsome
    obtain ⟨w, hw⟩ := Option.isSome_iff_exists.1 hsome
    rw [weak?, lookup_replace, ← weak?, ← weak?, hw]
    rfl
  · rename_i hnone
    have hnew : e.weak? name = none := by simpa using hnone
    rw [weak?, List.lookup_append, ← weak?, List.lookup_cons, List.lookup_nil]
    by_cases ho : other = name
    · simp [ho, hnew]
    · simp [ho, beq_false_of_ne ho]

/-- The names keep their places, and a new one comes after them. -/
theorem nodup_set (h : (e.entries.map Prod.fst).Nodup) (name : Text) (weak : Bool) :
    ((e.set name weak).entries.map Prod.fst).Nodup := by
  rw [set]
  split
  · have hsame : (e.entries.map fun entry => if entry.1 == name then (name, weak) else entry).map Prod.fst =
        e.entries.map Prod.fst := by
      rw [List.map_map]
      refine List.map_congr_left fun entry _ => ?_
      by_cases hname : entry.1 = name <;> simp [hname]
    exact hsame.symm ▸ h
  · rename_i hnone
    have hnew : e.entries.lookup name = none := by rwa [Bool.not_eq_true, Option.isSome_eq_false_iff,
      Option.isNone_iff_eq_none] at hnone
    rw [List.map_append, List.nodup_append]
    refine ⟨h, List.nodup_singleton _, fun n hn m hm hnm => ?_⟩
    obtain ⟨entry, hentry, rfl⟩ := List.mem_map.1 hn
    have hother := List.lookup_eq_none_iff.1 hnew entry hentry
    rw [hnm, List.mem_singleton.1 hm] at hother
    simp at hother

/-- The exports after a definition. They stay as they are if it is refused. -/
def enter (e : Exports) (d : Text × Symbol) : Exports := (e.define d.1 d.2.weak).getD e

/-- A definition sets its name if the name is new, or if the definition is strong and the ones before were not. -/
theorem enter_eq (e : Exports) (d : Text × Symbol) :
    e.enter d = if e.weak? d.1 = none ∨ e.weak? d.1 = some true ∧ d.2.weak = false then e.set d.1 d.2.weak
      else e := by
  unfold enter define
  cases e.weak? d.1 with
  | none => simp
  | some w => cases w <;> cases d.2.weak <;> simp

/-- A name is weak after a definition if it is weak or new before that, and the definition is weak. -/
theorem weak?_enter (e : Exports) (d : Text × Symbol) (name : Text) :
    (e.enter d).weak? name =
      if name = d.1 then some ((e.weak? name).getD true && d.2.weak) else e.weak? name := by
  rw [enter_eq]
  by_cases hname : name = d.1
  · subst hname
    split
    · rename_i hset
      rcases hset with hnew | ⟨hweak, hstrong⟩
      · simp [weak?_set, hnew]
      · simp [weak?_set, hstrong]
    · rename_i hkept
      cases hw : e.weak? d.1 with
      | none => exact absurd (Or.inl hw) hkept
      | some w => cases w <;> cases hd : d.2.weak <;> simp_all
  · rw [if_neg hname]
    split
    · rw [weak?_set, if_neg hname]
    · rfl

/-- Every name has one entry. -/
theorem nodup_enter (h : (e.entries.map Prod.fst).Nodup) (d : Text × Symbol) :
    ((e.enter d).entries.map Prod.fst).Nodup := by
  rw [enter_eq]
  split
  · exact nodup_set h _ _
  · exact h

end Exports

/-- The definitions of a list that are refused: the strong ones of names that are strong before them. -/
def refused : List (Text × Symbol) → Exports → List (Text × Symbol)
  | [], _ => []
  | d :: rest, e => (if (e.define d.1 d.2.weak).isNone then [d] else []) ++ refused rest (e.enter d)

/-- The exports after definitions. -/
def entered (defs : List (Text × Symbol)) (e : Exports) : Exports := defs.foldl Exports.enter e

/-- Exporting the symbols of a file enters its definitions and reports those that are refused. -/
theorem exportAll_eq (defs : List (Text × Symbol)) (e : Exports) :
    (exportAll defs e).1 = entered defs e ∧
      (exportAll defs e).2.2 = (refused defs e).map fun d => redefined d.1 d.2 := by
  induction defs generalizing e with
  | nil => exact ⟨rfl, rfl⟩
  | cons d rest ih =>
    obtain ⟨name, sym⟩ := d
    rw [exportAll, refused, entered, List.foldl_cons, ← entered, Exports.enter]
    cases e.define name sym.weak with
    | none =>
      obtain ⟨hexports, hreports⟩ := ih e
      exact ⟨hexports, by simp [hreports]⟩
    | some e' =>
      obtain ⟨hexports, hreports⟩ := ih e'
      exact ⟨hexports, by simp [hreports]⟩

variable {e : Exports}

theorem entered_append (defs defs' : List (Text × Symbol)) (e : Exports) :
    entered (defs ++ defs') e = entered defs' (entered defs e) := List.foldl_append

/-- Definitions are refused one list after the other. -/
theorem refused_append (defs defs' : List (Text × Symbol)) (e : Exports) :
    refused (defs ++ defs') e = refused defs e ++ refused defs' (entered defs e) := by
  induction defs generalizing e with
  | nil => rfl
  | cons d rest ih => simp [refused, entered, ih]

/-- Every name has one entry. -/
theorem nodup_entered (h : (e.entries.map Prod.fst).Nodup) (defs : List (Text × Symbol)) :
    ((entered defs e).entries.map Prod.fst).Nodup := by
  induction defs generalizing e with
  | nil => exact h
  | cons d rest ih => exact ih (Exports.nodup_enter h d)

/-- Whether the definitions of a name are weak, one after the other. -/
def weaknesses (defs : List (Text × Symbol)) (name : Text) : List Bool :=
  (defs.filter fun d => d.1 == name).map fun d => d.2.weak

/-- The definitions of a name, with one more in front. -/
theorem weaknesses_cons (d : Text × Symbol) (defs : List (Text × Symbol)) (name : Text) :
    weaknesses (d :: defs) name = if name = d.1 then d.2.weak :: weaknesses defs name else weaknesses defs name := by
  rw [weaknesses, List.filter_cons]
  by_cases hname : name = d.1
  · simp [hname, weaknesses]
  · simp [hname, Ne.symm hname, weaknesses]

/-- Definitions export their names, each of them weakly if all its definitions are weak. -/
theorem weak?_entered (defs : List (Text × Symbol)) (e : Exports) (name : Text) :
    (entered defs e).weak? name =
      if weaknesses defs name = [] then e.weak? name
      else some ((e.weak? name).getD true && (weaknesses defs name).all id) := by
  induction defs generalizing e with
  | nil => rfl
  | cons d rest ih =>
    rw [entered, List.foldl_cons, ← entered, ih, weaknesses_cons, Exports.weak?_enter]
    by_cases hname : name = d.1
    · simp only [if_pos hname, List.cons_ne_nil, if_false, List.all_cons, id, Option.getD_some, Bool.and_assoc]
      split
      · rename_i hnone
        simp [hnone]
      · rfl
    · simp only [if_neg hname]

/-- All strong definitions of a name are refused if it is strong already, and all but the first if not. -/
theorem count_refused (defs : List (Text × Symbol)) (e : Exports) (name : Text) :
    ((refused defs e).filter fun d => d.1 == name).length =
      if e.weak? name = some false then (weaknesses defs name).count false
      else (weaknesses defs name).count false - 1 := by
  induction defs generalizing e with
  | nil => simp [refused, weaknesses]
  | cons d rest ih =>
    rw [refused, List.filter_append, List.length_append, ih, weaknesses_cons, Exports.weak?_enter]
    by_cases hname : name = d.1
    · subst hname
      simp only [if_true, Option.some.injEq, Bool.and_eq_false_iff]
      cases hd : d.2.weak with
      | true =>
        -- a weak definition is never refused, and changes nothing about the strong ones
        have hnone : (e.define d.1 true).isNone = false := by
          cases hw : e.weak? d.1 <;> simp [Exports.define, hw]
        cases hw : e.weak? d.1 with
        | none => simp [hnone]
        | some w => cases w <;> simp [hnone]
      | false =>
        cases hw : e.weak? d.1 with
        | none => simp [Exports.define, hw]
        | some w => cases w <;> simp [Exports.define, hw, Nat.add_comm]
    · have hother : (((if (e.define d.1 d.2.weak).isNone then [d] else []).filter fun d => d.1 == name)).length = 0 := by
        split <;> simp [Ne.symm hname]
      simp only [if_neg hname, hother, Nat.zero_add]

/-- The strong definitions of a name. -/
def strong (defs : List (Text × Symbol)) (name : Text) : List (Text × Symbol) :=
  defs.filter fun d => d.1 == name && !d.2.weak

/-- They are the definitions of the name that are not weak. -/
theorem count_weaknesses (defs : List (Text × Symbol)) (name : Text) :
    (weaknesses defs name).count false = (strong defs name).length := by
  rw [weaknesses, strong, List.count, List.countP_map, List.countP_filter, List.countP_eq_length_filter]
  congr 1
  refine List.filter_congr fun d _ => ?_
  rw [Function.comp_apply, Bool.and_comm]
  cases d.2.weak <;> rfl

/-- What is refused is among the definitions. -/
theorem refused_sublist (defs : List (Text × Symbol)) (e : Exports) : (refused defs e).Sublist defs := by
  induction defs generalizing e with
  | nil => exact .slnil
  | cons d rest ih =>
    rw [refused]
    split
    · exact (ih _).cons_cons d
    · exact (ih _).cons d

/-! ## Runs over files -/

/-- An output without a fatal diagnostic, for which no file is left to be read. -/
structure IsClean (out : Assembly) : Prop where
  /-- No file is left to be read. -/
  read : (Tally.ofTokens out.tokens).unread? = none
  /-- No diagnostic ends the run. -/
  goesOn : ∀ d ∈ (Tally.ofTokens out.tokens).messages, d.isFatal = false

/-- The definitions of the names that an output exports. -/
def definitions (out : Assembly) : List (Text × Symbol) := exportedSymbols out.scope

/-- What is said about outputs: what each of them says, and which of its definitions are refused. -/
def said : List Assembly → Exports → List Diagnostic
  | [], _ => []
  | out :: rest, e =>
    (Tally.ofTokens out.tokens).messages ++ (refused (definitions out) e).map (fun d => redefined d.1 d.2) ++
      said rest (entered (definitions out) e)

/-- Apart from what the outputs say it is about the definitions that are refused. -/
theorem said_perm (outs : List Assembly) (e : Exports) :
    (said outs e).Perm (outs.flatMap (fun out => (Tally.ofTokens out.tokens).messages) ++
      (refused (outs.flatMap definitions) e).map fun d => redefined d.1 d.2) := by
  induction outs generalizing e with
  | nil => exact .refl _
  | cons out rest ih =>
    rw [said, List.flatMap_cons, List.flatMap_cons, refused_append, List.map_append, List.append_assoc,
      List.append_assoc]
    refine List.Perm.append_left _ (((ih _).append_left _).trans ?_)
    rw [← List.append_assoc, ← List.append_assoc]
    exact List.perm_append_comm.append_right _

theorem reportAll_cons (d : Diagnostic) (rest : List Diagnostic) (r : Reporter) :
    reportAll (d :: rest) r =
      if r.fatal then pure r else Command.complain (r.line d) >>= fun _ => reportAll rest (r.report d).1 := rfl

/-- All diagnostics are reported if none of them ends the run. -/
theorem exec_reportAll {ds : List Diagnostic} {r : Reporter} (hr : r.fatal = false)
    (hds : ∀ d ∈ ds, d.isFatal = false) (c : Console) :
    ∃ r', (reportAll ds r).exec c =
        (.ok r', { c with errReversed := (ds.map r.line).reverse ++ c.errReversed }) ∧
      r'.fatal = false ∧ r'.line = r.line := by
  induction ds generalizing r c with
  | nil => exact ⟨r, rfl, hr, rfl⟩
  | cons d rest ih =>
    obtain ⟨hd, hrest⟩ := List.forall_mem_cons.1 hds
    obtain ⟨r', hexec, hr', hline⟩ := ih (r := (r.report d).1) (by rw [Reporter.fatal_report, hr, hd]; rfl) hrest
      { c with errReversed := r.line d :: c.errReversed }
    rw [Reporter.line_report] at hexec hline
    refine ⟨r', ?_, hr', hline⟩
    rw [reportAll_cons, hr, if_neg Bool.false_ne_true, Command.exec_bind]
    refine hexec.trans ?_
    simp

/-- If the run has not ended after diagnostics, none of them ended it. -/
theorem goesOn_of_reportAll {ds : List Diagnostic} {r r' : Reporter} {c c' : Console}
    (h : (reportAll ds r).exec c = (.ok r', c')) (hr' : r'.fatal = false) :
    r.fatal = false ∧ ∀ d ∈ ds, d.isFatal = false := by
  induction ds generalizing r c with
  | nil =>
    cases h
    exact ⟨hr', fun d hd => absurd hd List.not_mem_nil⟩
  | cons d rest ih =>
    rw [reportAll_cons] at h
    split at h
    · rename_i hfatal
      cases h
      rw [hfatal] at hr'
      cases hr'
    · obtain ⟨_, c₁, -, h⟩ := Command.exists_of_exec_bind h
      obtain ⟨hreport, hrest⟩ := ih h
      rw [Reporter.fatal_report, Bool.or_eq_false_iff] at hreport
      exact ⟨hreport.1, List.forall_mem_cons.2 ⟨hreport.2, hrest⟩⟩

section Run

variable {env : Environment} {a : Assembler} {defines : List Define} {path : Text} {paths : List Text}
  {p p₁ p' : Progress} {c c₁ c' : Console} {out : Assembly} {outs outs' : List Assembly}

/-- A run goes on over outputs: it enters their definitions, and reports what they say and which definitions are
refused. -/
structure Proceeds (outs : List Assembly) (p p' : Progress) (c c' : Console) : Prop where
  /-- The run has not ended. -/
  goesOn : p'.reporter.fatal = false
  /-- Diagnostics are printed as before. -/
  line : p'.reporter.line = p.reporter.line
  /-- The definitions are entered. -/
  exports : p'.exports = entered (outs.flatMap definitions) p.exports
  /-- What is said is printed, the last line first. -/
  err : c'.errReversed = ((said outs p.exports).map p.reporter.line).reverse ++ c.errReversed

theorem Proceeds.nil (h : p.reporter.fatal = false) (c : Console) : Proceeds [] p p c c := ⟨h, rfl, rfl, rfl⟩

/-- One output and others. -/
theorem Proceeds.cons (h : Proceeds [out] p p₁ c c₁) (h' : Proceeds outs p₁ p' c₁ c') :
    Proceeds (out :: outs) p p' c c' where
  goesOn := h'.goesOn
  line := h'.line.trans h.line
  exports := by
    rw [h'.exports, h.exports, ← entered_append, List.flatMap_singleton, List.flatMap_cons]
  err := by
    have hsaid : said (out :: outs) p.exports = said [out] p.exports ++ said outs p₁.exports := by
      rw [said, said, said, List.append_nil, h.exports, List.flatMap_singleton]
    rw [h'.err, h.err, h.line, hsaid, List.map_append, List.reverse_append, List.append_assoc]

/-- What a file is assembled to does not depend on the run. -/
theorem Assembles.unique {out' : Assembly} (h : Assembles env a defines path out)
    (h' : Assembles env a defines path out') : out = out' := by
  obtain ⟨scope, source, hscope, hsource, hout⟩ := h
  obtain ⟨scope', source', hscope', hsource', hout'⟩ := h'
  rw [hout, hout', Except.ok.inj (hscope.symm.trans hscope'), Except.ok.inj (hsource.symm.trans hsource')]

/-- The run goes on after a file with a clean output. -/
theorem exec_assembleFile (hout : Assembles env a defines path out) (hclean : IsClean out)
    (hp : p.reporter.fatal = false) (c : Console) :
    ∃ p' c', (assembleFile env a defines path p).exec c = (.ok p', c') ∧ Proceeds [out] p p' c c' := by
  obtain ⟨scope, source, hscope, hsource, hout⟩ := hout
  obtain ⟨hexports, hclashes⟩ := exportAll_eq (definitions out) p.exports
  have hnone : ∀ d ∈ (exportAll (definitions out) p.exports).2.2, d.isFatal = false := by
    rw [hclashes]
    exact List.forall_mem_map.2 fun _ _ => rfl
  obtain ⟨r, hmessages, hr, hline⟩ := exec_reportAll hp hclean.goesOn c
  obtain ⟨r', hreports, hr', hline'⟩ := exec_reportAll hr hnone
    { c with errReversed :=
        ((Tally.ofTokens out.tokens).messages.map p.reporter.line).reverse ++ c.errReversed }
  rw [← List.append_assoc] at hreports
  have hfile : (assembleFile env a defines path p).exec c =
      (.ok ⟨r', (exportAll (definitions out) p.exports).1, p.dependencies ++ listed out⟩,
        { c with
          outReversed := summary path (Tally.ofTokens out.tokens) (exportAll (definitions out) p.exports).2.1
            (exportAll (definitions out) p.exports).1 :: c.outReversed
          errReversed := ((exportAll (definitions out) p.exports).2.2.map r.line).reverse ++
            ((Tally.ofTokens out.tokens).messages.map p.reporter.line).reverse ++ c.errReversed }) := by
    refine (Command.exec_bind_of_ok (Command.exec_require_of_ok _ hscope _)).trans
      ((Command.exec_bind_of_ok (Command.exec_require_of_ok _ hsource _)).trans ?_)
    dsimp only
    rw [← hout, hclean.read]
    refine (Command.exec_bind_of_ok hmessages).trans ?_
    rw [hr, if_neg Bool.false_ne_true]
    exact Command.exec_bind_of_ok hreports
  refine ⟨_, _, hfile, hr', hline'.trans hline, ?_, ?_⟩
  · rw [List.flatMap_singleton]
    exact hexports
  · simp [said, hclashes, hline]

/-- The run has gone on after a file if the output of the file is clean. -/
theorem isClean_of_assembleFile (h : (assembleFile env a defines path p).exec c = (.ok p', c'))
    (hp' : p'.reporter.fatal = false) :
    p.reporter.fatal = false ∧ ∃ out, Assembles env a defines path out ∧ IsClean out := by
  obtain ⟨scope, c₁, hscope, h⟩ := Command.exists_of_exec_bind h
  obtain ⟨source, c₂, hsource, h⟩ := Command.exists_of_exec_bind h
  have hout : Assembles env a defines path (a.assemble scope source) :=
    ⟨scope, source, (Command.eq_ok_of_exec_require hscope).1, (Command.eq_ok_of_exec_require hsource).1, rfl⟩
  dsimp only at h
  split at h
  · cases h
  · rename_i hread
    obtain ⟨r, c₃, hreporter, h⟩ := Command.exists_of_exec_bind h
    have hr : r.fatal = false := by
      split at h
      · cases h
        exact hp'
      · rename_i hfatal
        exact Bool.eq_false_iff.2 hfatal
    obtain ⟨hp, hmessages⟩ := goesOn_of_reportAll hreporter hr
    exact ⟨hp, _, hout, hread, hmessages⟩

/-- The run goes on over files with clean outputs. -/
theorem exec_assembleFiles (houts : List.Forall₂ (Assembles env a defines) paths outs)
    (hclean : ∀ out ∈ outs, IsClean out) (hp : p.reporter.fatal = false) (c : Console) :
    ∃ p' c', (assembleFiles env a defines paths p).exec c = (.ok p', c') ∧ Proceeds outs p p' c c' := by
  induction houts generalizing p c with
  | nil => exact ⟨p, c, rfl, .nil hp c⟩
  | cons hout _ ih =>
    obtain ⟨hfirst, hrest⟩ := List.forall_mem_cons.1 hclean
    obtain ⟨p₁, c₁, hfile, hproceeds⟩ := exec_assembleFile hout hfirst hp c
    obtain ⟨p', c', hfiles, hproceeds'⟩ := ih hrest hproceeds.goesOn c₁
    refine ⟨p', c', (Command.exec_bind_of_ok hfile).trans ?_, hproceeds.cons hproceeds'⟩
    rw [hproceeds.goesOn, if_neg Bool.false_ne_true]
    exact hfiles

/-- The run has gone on over files if their outputs are clean. -/
theorem isClean_of_assembleFiles (h : (assembleFiles env a defines paths p).exec c = (.ok p', c'))
    (hp' : p'.reporter.fatal = false) :
    p.reporter.fatal = false ∧
      ∃ outs, List.Forall₂ (Assembles env a defines) paths outs ∧ ∀ out ∈ outs, IsClean out := by
  induction paths generalizing p c with
  | nil =>
    cases h
    exact ⟨hp', [], .nil, fun out hout => absurd hout List.not_mem_nil⟩
  | cons path rest ih =>
    obtain ⟨p₁, c₁, hfile, h⟩ := Command.exists_of_exec_bind h
    have hrest : p₁.reporter.fatal = false ∧
        ∃ outs, List.Forall₂ (Assembles env a defines) rest outs ∧ ∀ out ∈ outs, IsClean out := by
      split at h
      · rename_i hfatal
        cases h
        rw [hfatal] at hp'
        cases hp'
      · exact ih h
    obtain ⟨hp₁, outs, houts, hclean⟩ := hrest
    obtain ⟨hp, out, hout, hfirst⟩ := isClean_of_assembleFile hfile hp₁
    exact ⟨hp, out :: outs, .cons hout houts, List.forall_mem_cons.2 ⟨hfirst, hclean⟩⟩

/-- What the definitions of outputs come to, without regard to the order of the outputs. -/
structure Combines (outs : List Assembly) (e : Exports) (again : List (Text × Symbol)) : Prop where
  /-- Every name has one entry. -/
  nodup : (e.entries.map Prod.fst).Nodup
  /-- The names are those that an output defines. -/
  isSome_weak?_iff : ∀ name, (e.weak? name).isSome = true ↔ ∃ out ∈ outs, ∃ sym, (name, sym) ∈ definitions out
  /-- A name is weak if every output that defines it does so weakly. -/
  weak?_eq_true_iff : ∀ name, e.weak? name = some true ↔
    (∃ out ∈ outs, ∃ sym, (name, sym) ∈ definitions out) ∧
      ∀ out ∈ outs, ∀ sym, (name, sym) ∈ definitions out → sym.weak = true
  /-- What is refused is a definition of an output. -/
  mem : ∀ d ∈ again, ∃ out ∈ outs, d ∈ definitions out
  /-- As many definitions of a name are refused as it has strong ones beyond the first. -/
  length_again : ∀ name, (again.filter fun d => d.1 == name).length =
    (strong (outs.flatMap definitions) name).length - 1

/-- Outputs that are entered one after the other come to what their definitions do. -/
theorem combines_entered (outs : List Assembly) :
    Combines outs (entered (outs.flatMap definitions) Exports.empty)
      (refused (outs.flatMap definitions) Exports.empty) := by
  have hmem : ∀ name weak, weak ∈ weaknesses (outs.flatMap definitions) name ↔
      ∃ out ∈ outs, ∃ sym, (name, sym) ∈ definitions out ∧ sym.weak = weak := by
    intro name weak
    simp only [weaknesses, List.mem_map, List.mem_filter, List.mem_flatMap, beq_iff_eq]
    constructor
    · rintro ⟨⟨_, sym⟩, ⟨⟨out, hout, hd⟩, rfl⟩, rfl⟩
      exact ⟨out, hout, sym, hd, rfl⟩
    · rintro ⟨out, hout, sym, hd, rfl⟩
      exact ⟨(name, sym), ⟨⟨out, hout, hd⟩, rfl⟩, rfl⟩
  have hdefined : ∀ name, weaknesses (outs.flatMap definitions) name ≠ [] ↔
      ∃ out ∈ outs, ∃ sym, (name, sym) ∈ definitions out := by
    intro name
    constructor
    · intro hne
      obtain ⟨weak, hweak⟩ := List.exists_mem_of_ne_nil _ hne
      obtain ⟨out, hout, sym, hd, -⟩ := (hmem name weak).1 hweak
      exact ⟨out, hout, sym, hd⟩
    · rintro ⟨out, hout, sym, hd⟩
      exact List.ne_nil_of_mem ((hmem name _).2 ⟨out, hout, sym, hd, rfl⟩)
  have hnew : ∀ name, Exports.empty.weak? name = none := fun _ => rfl
  have hempty : (Exports.empty.entries.map Prod.fst).Nodup := List.nodup_nil
  refine ⟨nodup_entered hempty _, fun name => ?_, fun name => ?_, fun d hd => ?_, fun name => ?_⟩
  · rw [weak?_entered, hnew, ← hdefined]
    split <;> simp_all
  · rw [weak?_entered, hnew, ← hdefined]
    by_cases hnone : weaknesses (outs.flatMap definitions) name = []
    · simp [hnone]
    · rw [if_neg hnone, Option.getD_none, Bool.true_and, Option.some.injEq, List.all_eq_true]
      constructor
      · exact fun hall => ⟨hnone, fun out hout sym hd => hall _ ((hmem name _).2 ⟨out, hout, sym, hd, rfl⟩)⟩
      · rintro ⟨-, hall⟩ weak hweak
        obtain ⟨out, hout, sym, hd, rfl⟩ := (hmem name weak).1 hweak
        exact hall out hout sym hd
  · exact List.mem_flatMap.1 ((refused_sublist _ _).subset hd)
  · rw [count_refused, hnew, if_neg (by simp), count_weaknesses]

/-- The order of the outputs does not matter. -/
theorem Combines.perm {e : Exports} {again : List (Text × Symbol)} (h : Combines outs e again)
    (hperm : outs.Perm outs') : Combines outs' e again where
  nodup := h.nodup
  isSome_weak?_iff name := by simpa only [hperm.mem_iff] using h.isSome_weak?_iff name
  weak?_eq_true_iff name := by simpa only [hperm.mem_iff] using h.weak?_eq_true_iff name
  mem d hd := by simpa only [hperm.mem_iff] using h.mem d hd
  length_again name := by
    rw [h.length_again, strong, strong, ((hperm.flatMap_right definitions).filter _).length_eq]

/-- A run over files without a fatal diagnostic has outputs for them, and a run over the files in any other order has
no fatal diagnostic either. Its exports are what the definitions of the outputs come to, and it reports what the
outputs say and nothing but the definitions that are refused. -/
theorem exports_permuted {r : Reporter} {files : List Text}
    (h : (assembleFiles env a defines paths ⟨r, Exports.empty, files⟩).exec c = (.ok p₁, c₁))
    (hfatal : p₁.reporter.fatal = false) :
    ∃ outs, List.Forall₂ (Assembles env a defines) paths outs ∧
      ∀ paths' : List Text, paths'.Perm paths → ∃ p' c' again,
        (assembleFiles env a defines paths' ⟨r, Exports.empty, files⟩).exec c = (.ok p', c') ∧
          p'.reporter.fatal = false ∧ Combines outs p'.exports again ∧
          c'.errReversed.Perm (((outs.flatMap fun out => (Tally.ofTokens out.tokens).messages) ++
            again.map fun d => redefined d.1 d.2).map r.line ++ c.errReversed) := by
  obtain ⟨hr, outs, houts, hclean⟩ := isClean_of_assembleFiles h hfatal
  refine ⟨outs, houts, fun paths' hperm => ?_⟩
  -- the files in the other order have the same outputs in that order
  obtain ⟨outs', houts', hperm'⟩ := List.perm_comp_forall₂ hperm houts
  obtain ⟨p', c', hexec, hproceeds⟩ := exec_assembleFiles houts'
    (fun out hout => hclean out (hperm'.mem_iff.1 hout)) (p := ⟨r, Exports.empty, files⟩) hr c
  refine ⟨p', c', refused (outs'.flatMap definitions) Exports.empty, hexec, hproceeds.goesOn, ?_, ?_⟩
  · rw [hproceeds.exports]
    exact (combines_entered outs').perm hperm'
  · rw [hproceeds.err]
    refine List.Perm.append_right _ ((List.reverse_perm _).trans (List.Perm.map _ ?_))
    exact (said_perm outs' _).trans ((hperm'.flatMap_right _).append_right _)

end Run

namespace Sample

/-- A directory with a file that defines N weakly, and two that define it strongly. -/
def library : Environment :=
  { directory [] [] with
    files := fun path =>
      if path == "weak.json" then
        .file (list [node "GlobalDirective" [member "names" (list [name]), member "weak" "true"], equate])
      else if path == "strong.json" || path == "again.json" then .file (list [equate])
      else .absent Entry.noEntry }

/-- Instructions are those of the processor, and nothing is included. -/
def assembler : Assembler := ⟨.s1c88 .edits, none, 0, .counted⟩

/-- Diagnostics are printed plainly. -/
def reporter : Reporter := ⟨false, false, false, false, false⟩

/-- What assembling files of the directory comes to. -/
def runLibrary (paths : List Text) : Except Halt Progress × Console :=
  (assembleFiles library assembler [] paths ⟨reporter, Exports.empty, []⟩).exec Console.start

/-- What a file of the directory is assembled to. -/
def outputOf (path : Text) : Assembly :=
  assembler.assemble Scope.initial ((readProgram library.files path).toOption.getD [])

/-- A file that can be read is assembled to that. -/
theorem assembles_outputOf {path : Text} (h : (readProgram library.files path).toOption.isSome = true) :
    Assembles library assembler [] path (outputOf path) := by
  refine ⟨Scope.initial, (readProgram library.files path).toOption.getD [], rfl, ?_, rfl⟩
  cases hread : readProgram library.files path with
  | ok ts => rfl
  | error e =>
    rw [hread] at h
    cases h

end Sample

open Sample in
/-- N is exported strongly, and one of its two strong definitions is refused, also if the weak one comes last. Nothing
else is said. -/
theorem exports_permuted_library :
    ((runLibrary ["weak.json", "strong.json", "again.json"]).1.toOption.map fun p => p.reporter.fatal) = some false ∧
      ∃ p' c', ∃ again : List (Text × Symbol),
        runLibrary ["again.json", "strong.json", "weak.json"] = (.ok p', c') ∧
          p'.exports.weak? "N" = some false ∧ (again.filter fun d => d.1 == Text.ofString "N").length = 1 ∧
          c'.errReversed.Perm (again.map fun d => reporter.line (redefined d.1 d.2)) := by
  -- decided together, so that the files are read once for all of them
  obtain ⟨hfatal, hreadable, hentry, hcount, hsilent⟩ :
      ((runLibrary ["weak.json", "strong.json", "again.json"]).1.toOption.map fun p => p.reporter.fatal) =
          some false ∧
        (∀ path ∈ [Text.ofString "weak.json", "strong.json", "again.json"],
          (readProgram library.files path).toOption.isSome = true) ∧
        (Text.ofString "N", false) ∈ (definitions (outputOf "strong.json")).map (fun d => (d.1, d.2.weak)) ∧
        (strong ([outputOf "weak.json", outputOf "strong.json", outputOf "again.json"].flatMap definitions)
          "N").length = 2 ∧
        (([outputOf "weak.json", outputOf "strong.json", outputOf "again.json"].flatMap fun out =>
          (Tally.ofTokens out.tokens).messages)).length = 0 := by
    decide +kernel
  refine ⟨hfatal, ?_⟩
  rcases hrun : runLibrary ["weak.json", "strong.json", "again.json"] with ⟨r, c₁⟩
  rw [hrun] at hfatal
  cases r with
  | error halt => cases hfatal
  | ok p₁ =>
    obtain ⟨outs, houts, horders⟩ := exports_permuted hrun (Option.some.inj hfatal)
    have hknown : outs = [outputOf "weak.json", outputOf "strong.json", outputOf "again.json"] := by
      cases houts with
      | cons h₁ h => cases h with
        | cons h₂ h => cases h with
          | cons h₃ h => cases h with
            | nil =>
              rw [h₁.unique (assembles_outputOf (hreadable _ (by simp))),
                h₂.unique (assembles_outputOf (hreadable _ (by simp))),
                h₃.unique (assembles_outputOf (hreadable _ (by simp)))]
    obtain ⟨p', c', again, hexec, -, hcombines, herr⟩ :=
      horders ["again.json", "strong.json", "weak.json"] (by decide)
    rw [hknown] at hcombines herr
    -- one of the outputs defines N strongly, so that it is there, and not weak
    obtain ⟨⟨_, sym⟩, hd, heq⟩ := List.mem_map.1 hentry
    obtain ⟨rfl, hstrong⟩ := Prod.mk.inj heq
    have hsome := (hcombines.isSome_weak?_iff "N").2 ⟨outputOf "strong.json", by simp, sym, hd⟩
    have hweak : p'.exports.weak? "N" = some false := by
      obtain ⟨weak, hweak⟩ := Option.isSome_iff_exists.1 hsome
      cases weak with
      | false => exact hweak
      | true =>
        have htrue := ((hcombines.weak?_eq_true_iff "N").1 hweak).2 (outputOf "strong.json") (by simp) sym hd
        exact absurd (hstrong.symm.trans htrue) Bool.false_ne_true
    refine ⟨p', c', again, hexec, hweak, ?_, ?_⟩
    · rw [hcombines.length_again "N", hcount]
    · rw [List.eq_nil_of_length_eq_zero hsilent, List.nil_append, List.map_map] at herr
      simpa [Console.start, Function.comp_def] using herr

end Cli

end MacroAsm
