import MacroAsm.Cli.Assemble
import MacroAsm.Proofs.Assembly.Dependencies
import MacroAsm.Proofs.Cli.Command

/-!
# Listing dependencies

`assemble -d` writes a rule that lists the dependencies at the top level of the outputs (`Cli.writes_assemble`). A
dependency in an arm of an IF that is left to the linker, or one that is lost between the stages of a block, is not
among them. Where there is none of either kind (`Assembler.Exposes`), the rule lists every file that was loaded
(`Cli.mem_listed_of_loads`).
-/

namespace MacroAsm

namespace Reporter

/-- What a reporter says after diagnostics of a list: it has failed if the run has ended, and if it has not, then it
had not failed before, and none of them is a failure. -/
structure Covers (r r' : Reporter) (ds : List Diagnostic) : Prop where
  /-- The end of the run is a failure. -/
  fatal : r'.fatal = true → r'.failed = true
  /-- Failures are kept. -/
  clean : r'.failed = false → r.failed = false ∧ ∀ d ∈ ds, d.fails = false

variable {r r' r'' : Reporter} {ds ds' : List Diagnostic}

theorem Covers.refl (h : r.fatal = true → r.failed = true) : r.Covers r [] :=
  ⟨h, fun hclean => ⟨hclean, fun _ hd => absurd hd List.not_mem_nil⟩⟩

/-- More is reported later. -/
theorem Covers.trans (h : r.Covers r' ds) (h' : r'.Covers r'' ds') : r.Covers r'' (ds ++ ds') where
  fatal := h'.fatal
  clean hclean := by
    obtain ⟨hmiddle, hlater⟩ := h'.clean hclean
    obtain ⟨hbefore, hfirst⟩ := h.clean hmiddle
    exact ⟨hbefore, List.forall_mem_append.2 ⟨hfirst, hlater⟩⟩

/-- The run has ended before the diagnostics. -/
theorem Covers.of_fatal (hfatal : r.fatal = true) (h : r.fatal = true → r.failed = true) (ds : List Diagnostic) :
    r.Covers r ds := by
  refine ⟨h, fun hclean => ?_⟩
  rw [h hfatal] at hclean
  cases hclean

/-- One diagnostic is reported. -/
theorem covers_report (h : r.fatal = true → r.failed = true) (d : Diagnostic) : r.Covers (r.report d).1 [d] := by
  have hfails : d.fails = (d.level == .fatal || d.level == .fail) := rfl
  rw [report]
  cases hlevel : d.level with
  | fatal | fail => exact ⟨fun _ => rfl, fun hclean => by cases hclean⟩
  | warn =>
    refine ⟨fun hfatal => by rw [h hfatal]; rfl, fun hclean => ?_⟩
    refine ⟨(Bool.or_eq_false_iff.1 hclean).1, List.forall_mem_singleton.2 ?_⟩
    rw [hfails, hlevel]
    rfl
  | info =>
    have hsame : (if r.verbose then (r, r.render d ++ "\n") else (r, Text.empty)).1 = r := by split <;> rfl
    refine ⟨?_, fun hclean => ?_⟩
    all_goals dsimp only at *
    · rwa [hsame]
    · rw [hsame] at hclean
      refine ⟨hclean, List.forall_mem_singleton.2 ?_⟩
      rw [hfails, hlevel]
      rfl
  | other n =>
    refine ⟨h, fun hclean => ⟨hclean, List.forall_mem_singleton.2 ?_⟩⟩
    rw [hfails, hlevel]
    rfl

end Reporter

namespace Cli

namespace Tally

/-- The listed files are those of the dependencies at top level. -/
theorem mem_dependencies {ts : List Token} {file : Text} :
    file ∈ (ofTokens ts).dependencies ↔ ∃ loc, .dependency loc file ∈ ts := by
  induction ts with
  | nil => simp [ofTokens]
  | cons t rest ih =>
    rw [ofTokens, List.foldr_cons, ← ofTokens]
    cases t with
    | dependency loc name => simp [cons, ih, exists_or]
    | _ => simp [cons, ih]

/-- The diagnostics are those at top level. -/
theorem mem_messages {ts : List Token} {d : Diagnostic} : d ∈ (ofTokens ts).messages ↔ .message d ∈ ts := by
  induction ts with
  | nil => simp [ofTokens]
  | cons t rest ih =>
    rw [ofTokens, List.foldr_cons, ← ofTokens]
    cases t with
    | message d' => simp [cons, ih]
    | _ => simp [cons, ih]

end Tally

/-- The files that the output of a program lists. -/
def listed (out : Assembly) : List Text := (Tally.ofTokens out.tokens).dependencies

/-- Reporting diagnostics writes no file and does not end the program. -/
theorem cautious_reportAll (ds : List Diagnostic) (r : Reporter) : (reportAll ds r).Cautious := by
  induction ds generalizing r with
  | nil => exact .pure r
  | cons d rest ih =>
    rw [reportAll]
    split
    · exact .pure r
    · exact .bind (.complain _) fun _ => ih _

/-- The reporter after diagnostics. -/
theorem covers_reportAll {ds : List Diagnostic} {r r' : Reporter} {c c' : Console}
    (hr : r.fatal = true → r.failed = true) (h : (reportAll ds r).exec c = (.ok r', c')) : r.Covers r' ds := by
  induction ds generalizing r c with
  | nil =>
    cases h
    exact .refl hr
  | cons d rest ih =>
    rw [reportAll] at h
    split at h
    · rename_i hfatal
      cases h
      exact .of_fatal hfatal hr _
    · have hreport := Reporter.covers_report hr d
      obtain ⟨_, c₁, -, hrest⟩ := Command.exists_of_exec_bind h
      exact hreport.trans (ih hreport.fatal hrest)

section Files

variable {env : Environment} {a : Assembler} {defines : List Define} {path : Text} {paths : List Text}
  {p p' : Progress} {c c' : Console}

/-- The output of a file of the command line. -/
def Assembles (env : Environment) (a : Assembler) (defines : List Define) (path : Text) (out : Assembly) : Prop :=
  ∃ scope source, Define.rootScope defines = .ok scope ∧ readProgram env.files path = .ok source ∧
    out = a.assemble scope source

/-- Assembling a file writes no file, and ends the program only with a failure. -/
theorem cautious_assembleFile (env : Environment) (a : Assembler) (defines : List Define) (path : Text)
    (p : Progress) : (assembleFile env a defines path p).Cautious := by
  refine .bind (.require _ _) fun scope => .bind (.require _ _) fun source => ?_
  dsimp only
  split
  · exact .needsFile _
  · refine .bind (cautious_reportAll _ _) fun reporter => ?_
    split
    · exact .pure _
    · exact .bind (cautious_reportAll _ _) fun reporter => .bind (.print _) fun _ => .pure _

/-- Assembling files writes no file, and ends the program only with a failure. -/
theorem cautious_assembleFiles (env : Environment) (a : Assembler) (defines : List Define) (paths : List Text)
    (p : Progress) : (assembleFiles env a defines paths p).Cautious := by
  induction paths generalizing p with
  | nil => exact .pure p
  | cons path rest ih =>
    refine .bind (cautious_assembleFile env a defines path p) fun p => ?_
    split
    · exact .pure p
    · exact ih p

/-- A file is assembled, what it lists is added, and its diagnostics are reported. -/
theorem assembles_of_assembleFile (hp : p.reporter.fatal = true → p.reporter.failed = true)
    (h : (assembleFile env a defines path p).exec c = (.ok p', c')) :
    ∃ out, Assembles env a defines path out ∧ p'.dependencies = p.dependencies ++ listed out ∧
      p.reporter.Covers p'.reporter (Tally.ofTokens out.tokens).messages := by
  obtain ⟨scope, c₁, hscope, h⟩ := Command.exists_of_exec_bind h
  obtain ⟨source, c₂, hsource, h⟩ := Command.exists_of_exec_bind h
  refine ⟨a.assemble scope source, ⟨scope, source, (Command.eq_ok_of_exec_require hscope).1,
    (Command.eq_ok_of_exec_require hsource).1, rfl⟩, ?_⟩
  dsimp only at h
  split at h
  · cases h
  · obtain ⟨reporter, c₃, hreporter, h⟩ := Command.exists_of_exec_bind h
    have hcovers := covers_reportAll hp hreporter
    split at h
    · cases h
      exact ⟨rfl, hcovers⟩
    · obtain ⟨reporter', c₄, hreporter', h⟩ := Command.exists_of_exec_bind h
      have hclashes := covers_reportAll hcovers.fatal hreporter'
      cases h
      refine ⟨rfl, hclashes.fatal, fun hclean => ?_⟩
      exact hcovers.clean (hclashes.clean hclean).1

/-- Files are assembled one by one. If no failure was reported, all of them were, what they list was added, and none
of their outputs has a failure. -/
theorem assembles_of_assembleFiles (hp : p.reporter.fatal = true → p.reporter.failed = true)
    (h : (assembleFiles env a defines paths p).exec c = (.ok p', c')) (hclean : p'.reporter.failed = false) :
    p.reporter.failed = false ∧ ∃ outs, List.Forall₂ (Assembles env a defines) paths outs ∧
      p'.dependencies = p.dependencies ++ outs.flatMap listed ∧
      ∀ out ∈ outs, ∀ d, .message d ∈ out.tokens → d.fails = false := by
  induction paths generalizing p c with
  | nil =>
    cases h
    exact ⟨hclean, [], .nil, (List.append_nil _).symm, fun _ hout => absurd hout List.not_mem_nil⟩
  | cons path rest ih =>
    obtain ⟨p₁, c₁, hfile, h⟩ := Command.exists_of_exec_bind h
    obtain ⟨out, hout, hlisted, hcovers⟩ := assembles_of_assembleFile hp hfile
    split at h
    · -- the run has ended, which is a failure
      rename_i hfatal
      cases h
      rw [hcovers.fatal hfatal] at hclean
      cases hclean
    · obtain ⟨hclean₁, outs, houts, hrest, hnone⟩ := ih hcovers.fatal h
      obtain ⟨hbefore, hmessages⟩ := hcovers.clean hclean₁
      refine ⟨hbefore, out :: outs, .cons hout houts, ?_, List.forall_mem_cons.2 ⟨fun d hd => ?_, hnone⟩⟩
      · rw [hrest, hlisted, List.flatMap_cons, List.append_assoc]
      · exact hmessages d (Tally.mem_messages.2 hd)

end Files

/-- What the arguments of `assemble`, the settings and the instruction set come to. -/
structure Setup (env : Environment) (a : Arguments) where
  /-- The settings. -/
  settings : Settings
  /-- The definitions. -/
  defines : List Define
  /-- The instruction set. -/
  table : InstructionSet
  /-- The settings are those of the configuration file. -/
  settings_eq : Settings.read env (a.value "config") = .ok settings
  /-- The definitions are those of the settings and the flags. -/
  defines_eq : Define.collect settings.defines (a.values "D") = .ok defines
  /-- The instruction set is that of the flag, or else of the settings. -/
  table_eq : readTable env
    (if (a.value "table").isEmpty then settings.table else a.value "table") = .ok table

namespace Setup

variable {env : Environment} {a : Arguments}

/-- There is one outcome of reading at most. -/
instance : Subsingleton (Setup env a) := by
  refine ⟨fun s s' => ?_⟩
  obtain ⟨settings, defines, table, hsettings, hdefines, htable⟩ := s
  obtain ⟨settings', defines', table', hsettings', hdefines', htable'⟩ := s'
  cases hsettings.symm.trans hsettings'
  cases hdefines.symm.trans hdefines'
  cases htable.symm.trans htable'
  rfl

/-- Includes files from the directories of the flags and of the settings. -/
def assembler (s : Setup env a) : Assembler :=
  ⟨s.table, some (env.files.includer (a.values "I" ++ s.settings.includePaths)), 0, env.naming⟩

/-- The reporter before the first file. -/
def reporter (s : Setup env a) : Reporter :=
  ⟨env.colour, a.isOn "v", a.isOn "Werror" || s.settings.strict, false, false⟩

/-- The progress before the first file. -/
def start (s : Setup env a) : Progress := ⟨s.reporter, Exports.empty, []⟩

end Setup

variable {env : Environment} {args : List Text} {a : Arguments} {o : Outcome}

/-- A run that ends with success has assembled every file without a failure, and writes the rule that lists the
dependencies at the top level of the outputs. -/
theorem writes_assemble (hargs : Arguments.parse assembleFlags args = .ok a) (hhelp : a.isOn "h" = false)
    (htarget : (a.value "d").isEmpty = false) (hrun : (assemble env args).outcome = .ok o) (hexit : o.exit = 0) :
    ∃ (s : Setup env a) (outs : List Assembly),
      List.Forall₂ (Assembles env s.assembler s.defines) a.rest outs ∧
      (∀ out ∈ outs, ∀ d, .message d ∈ out.tokens → d.fails = false) ∧
      o.writes = [(a.value "d", dependencyRule env (a.value "d") (outs.flatMap listed))] := by
  obtain ⟨c', h, hwrites⟩ := Command.succeeds_of_outcome hrun hexit
  rw [assemble] at h
  replace h := h.of_bind (Command.exec_readArguments hargs _ _)
  rw [hhelp, if_neg Bool.false_ne_true] at h
  dsimp only at h
  split at h
  · obtain ⟨_, c₁, -, -, h⟩ := (Command.Cautious.complain _).succeeds_bind h
    exact absurd h (Command.not_succeeds_exit Nat.one_ne_zero _)
  · -- the parts before the rule is written give their results
    obtain ⟨settings, c₁, hsettings, hw₁, h⟩ := (Command.Cautious.require _ _).succeeds_bind h
    obtain ⟨defines, c₂, hdefines, hw₂, h⟩ := (Command.Cautious.require _ _).succeeds_bind h
    obtain ⟨table, c₃, htable, hw₃, h⟩ := (Command.Cautious.require _ _).succeeds_bind h
    obtain ⟨p, c₄, hfiles, hw₄, h⟩ := (cautious_assembleFiles _ _ _ _ _).succeeds_bind h
    let s : Setup env a := ⟨settings, defines, table, (Command.eq_ok_of_exec_require hsettings).1,
      (Command.eq_ok_of_exec_require hdefines).1, (Command.eq_ok_of_exec_require htable).1⟩
    cases hfailed : p.reporter.failed with
    | true =>
      rw [hfailed, if_pos rfl] at h
      exact absurd h (Command.not_succeeds_exit Nat.one_ne_zero _)
    | false =>
      rw [hfailed, if_neg Bool.false_ne_true, htarget, Bool.not_false, if_pos rfl] at h
      obtain ⟨-, outs, houts, hlisted, hnone⟩ :=
        assembles_of_assembleFiles (p := s.start) (fun hfatal => by cases hfatal) hfiles hfailed
      obtain ⟨_, c₅, -, hw₅, h⟩ := (Command.Cautious.require _ _).succeeds_bind h
      have hend : c' = { c₅ with writesReversed :=
          (a.value "d", dependencyRule env (a.value "d") p.dependencies) :: c₅.writesReversed } := by
        rcases h with h | h
        · cases h
        · exact (Prod.mk.inj h).2.symm
      refine ⟨s, outs, houts, hnone, ?_⟩
      rw [hwrites, hend, Console.writes, hw₅, hw₄, hw₃, hw₂, hw₁, hlisted]
      rfl

/-- A run whose files are assembled without a failure ends with success and the rule for their dependencies, if the
rule can be written. -/
theorem outcome_assemble (hargs : Arguments.parse assembleFlags args = .ok a) (hhelp : a.isOn "h" = false)
    (hrest : a.rest.isEmpty = false) (htarget : (a.value "d").isEmpty = false)
    (hwritable : env.files.checkWritable (a.value "d") = .ok ()) (s : Setup env a) {p : Progress}
    (hfiles : ((assembleFiles env s.assembler s.defines a.rest s.start).exec Console.start).1 = .ok p)
    (hclean : p.reporter.failed = false) :
    ∃ o, (assemble env args).outcome = .ok o ∧ o.exit = 0 ∧
      o.writes = [(a.value "d", dependencyRule env (a.value "d") p.dependencies)] := by
  have hwrites := (cautious_assembleFiles env s.assembler s.defines a.rest s.start).writes Console.start
  rcases hexec : (assembleFiles env s.assembler s.defines a.rest s.start).exec Console.start with ⟨r, c⟩
  rw [hexec] at hfiles hwrites
  cases hfiles
  have hend : (assemble env args).exec Console.start = (.error (.exit 0), { c with writesReversed :=
      (a.value "d", dependencyRule env (a.value "d") p.dependencies) :: c.writesReversed }) := by
    rw [assemble, Command.exec_bind_of_ok (Command.exec_readArguments hargs _ _), hhelp, if_neg Bool.false_ne_true]
    dsimp only
    rw [hrest, if_neg Bool.false_ne_true, Command.exec_bind_of_ok (Command.exec_require_of_ok _ s.settings_eq _),
      Command.exec_bind_of_ok (Command.exec_require_of_ok _ s.defines_eq _),
      Command.exec_bind_of_ok (Command.exec_require_of_ok _ s.table_eq _)]
    refine (Command.exec_bind_of_ok hexec).trans ?_
    rw [hclean, if_neg Bool.false_ne_true, htarget, Bool.not_false, if_pos rfl,
      Command.exec_bind_of_ok (Command.exec_require_of_ok _ hwritable _)]
    rfl
  refine ⟨_, Command.outcome_of_exec hend, rfl, ?_⟩
  rw [Console.writes, hwrites]
  rfl

namespace Sample

/-- A member of an object. -/
def member (key value : Text) : Text := "\"" ++ key ++ "\":" ++ value

/-- A string. -/
def quoted (t : Text) : Text := "\"" ++ t ++ "\""

/-- A list. -/
def list (items : List Text) : Text := "[" ++ Text.join "," items ++ "]"

/-- A node of a type, with more members. -/
def node (type : Text) (members : List Text) : Text :=
  "\x7b" ++ Text.join "," (member "type" (quoted type) :: members) ++ "\x7d"

/-- The expression that is the name N. -/
def name : Text := node "Identifier" [member "name" (quoted "N")]

/-- A number. -/
def number (digits : Text) : Text := node "Number" [member "value" digits]

/-- The statement that includes the file `a.json`. -/
def inclusion : Text := node "IncludeDirective" [member "path" (node "String" [member "value" (quoted "a.json")])]

/-- The statement that repeats others as often as an expression says. -/
def repetition (count : Text) (body : List Text) : Text :=
  node "CountDupDirective" [member "count" count, member "body" (list body)]

/-- A directory with a program, and with a file that the program may include. -/
def directory (program included : List Text) : Environment where
  program := "c88as"
  files path :=
    if path == "main.json" then .file (list program)
    else if path == "a.json" then .file (list included)
    else if path == "." then .directory
    else .absent Entry.noEntry
  directory := "/"
  home := none
  input := none
  colour := false
  naming := .counted
  similarity := .edits
  decode := Toml.decode?

/-- The rule for the program is written to the file `deps`. -/
def words : List Text := ["-d", "deps", "main.json"]

/-- The flags and the arguments among the words. -/
def arguments : Arguments := ⟨[("d", "deps")], ["main.json"]⟩

theorem parse_words : Arguments.parse assembleFlags words = .ok arguments := rfl

variable (program included : List Text)

/-- There are no settings, and no definitions. -/
def setup : Setup (directory program included) arguments where
  settings := Settings.empty
  defines := []
  table := .s1c88 .edits
  settings_eq := rfl
  defines_eq := by
    rw [Define.collect, show (Settings.empty).defines = [] from rfl, List.mergeSort_nil]
    rfl
  table_eq := rfl

/-- The statements of the program. -/
def source : List Token := (readProgram (directory program included).files "main.json").toOption.getD []

/-- What assembling the program comes to. -/
def run : Except Halt Progress × Console :=
  (assembleFiles (directory program included) (setup program included).assembler (setup program included).defines
    ["main.json"] (setup program included).start).exec Console.start

/-- A program that can be read has its statements. -/
theorem readProgram_source
    (h : (readProgram (directory program included).files "main.json").toOption.isSome = true) :
    readProgram (directory program included).files "main.json" = .ok (source program included) := by
  rw [source]
  cases hread : readProgram (directory program included).files "main.json" with
  | ok ts => rfl
  | error e =>
    rw [hread] at h
    cases h

/-- Whether the program is assembled with the file that it may include, and ends early without it. -/
def needsFile : Bool :=
  let a := (setup program included).assembler
  let find := (directory program included).files.includer (arguments.values "I" ++ Settings.empty.includePaths)
  !(a.assemble Scope.initial (source program included)).tokens.any Token.isFatal &&
    ((a.including (find.without "a.json")).assemble Scope.initial (source program included)).tokens.any Token.isFatal

variable {program included} in
/-- Then it loads the file. -/
theorem loads_of_needsFile (h : needsFile program included = true) :
    (setup program included).assembler.Loads Scope.initial (source program included) "a.json" := by
  rw [needsFile, Bool.and_eq_true, Bool.not_eq_true'] at h
  exact Assembler.loads_of_without rfl h.1 h.2

/-- The command ends with success and writes the rule, if that comes to no failure. -/
theorem outcome_words (files : List Text)
    (h : ((run program included).1.toOption.map fun p => (p.dependencies, p.reporter.failed)) =
      some (files, false)) :
    ∃ o, (assemble (directory program included) words).outcome = .ok o ∧ o.exit = 0 ∧
      o.writes =
        [(arguments.value "d", dependencyRule (directory program included) (arguments.value "d") files)] := by
  obtain ⟨p, hp, heq⟩ := Option.map_eq_some_iff.1 h
  obtain ⟨rfl, hclean⟩ := Prod.mk.inj heq
  have hfiles : (run program included).1 = .ok p := by
    revert hp
    cases (run program included).1 with
    | ok p' => exact fun hp => congrArg _ (Option.some.inj hp)
    | error halt => exact fun hp => by cases hp
  exact outcome_assemble parse_words rfl rfl rfl rfl (setup program included) hfiles hclean

/-- The file is included two times. -/
def twice : List Text := [repetition (number "2") [inclusion]]

/-- The statement N EQU 1. -/
def equate : Text := node "EquateDirective" [member "name" name, member "value" (number "1")]

/-- END is repeated as often as N says. The file that says it is included after that. -/
def lateEnd : List Text := [repetition name [node "EndDirective" []], inclusion]

end Sample

open Sample

/-- The rule of a run that ends with success lists every file that a program loads, if no dependency of the program
gets lost. -/
theorem mem_listed_of_loads (hargs : Arguments.parse assembleFlags args = .ok a) (hhelp : a.isOn "h" = false)
    (htarget : (a.value "d").isEmpty = false) (hrun : (assemble env args).outcome = .ok o) (hexit : o.exit = 0) :
    ∃ (s : Setup env a) (files : List Text),
      o.writes = [(a.value "d", dependencyRule env (a.value "d") files)] ∧
      ∀ path ∈ a.rest, ∃ scope source, Define.rootScope s.defines = .ok scope ∧
        readProgram env.files path = .ok source ∧
        (s.assembler.Exposes scope source → ∀ file, s.assembler.Loads scope source file → file ∈ files) := by
  obtain ⟨s, outs, houts, hnone, hwrites⟩ := writes_assemble hargs hhelp htarget hrun hexit
  refine ⟨s, outs.flatMap listed, hwrites, fun path hpath => ?_⟩
  obtain ⟨out, hout, scope, source, hscope, hsource, heq⟩ := Scope.exists_of_forall₂ houts hpath
  refine ⟨scope, source, hscope, hsource, fun hexposes file hloads => List.mem_flatMap.2 ⟨out, hout, ?_⟩⟩
  rw [heq]
  exact Tally.mem_dependencies.2 (hexposes.exists_dependency hloads)

/-- The file is included two times, and listed. -/
theorem mem_listed_of_loads_twice :
    (Arguments.parse assembleFlags words = .ok arguments ∧ arguments.isOn "h" = false ∧
      (arguments.value "d").isEmpty = false) ∧
    ∃ o, (assemble (directory twice []) words).outcome = .ok o ∧ o.exit = 0 ∧ ∃ files,
      o.writes = [(arguments.value "d", dependencyRule (directory twice []) (arguments.value "d") files)] ∧
        Text.ofString "a.json" ∈ files := by
  let out := (setup twice []).assembler.assemble Scope.initial (source twice [])
  -- decided together, so that the program is read once for all of them
  obtain ⟨hreadable, hends, hneeds, hkept, hlifted⟩ :
      (readProgram (directory twice []).files "main.json").toOption.isSome = true ∧
        ((Sample.run twice []).1.toOption.map fun p => (p.dependencies, p.reporter.failed)) =
          some ([Text.ofString "a.json", "a.json"], false) ∧
        needsFile twice [] = true ∧
        (∀ t ∈ ((setup twice []).assembler.assembleThorough Scope.initial (source twice [])).tokens, t.fails = false) ∧
        ∀ file ∈ Token.allFiles out.tokens, file ∈ (Tally.ofTokens out.tokens).dependencies := by
    decide +kernel
  have hexposes : (setup twice []).assembler.Exposes Scope.initial (source twice []) :=
    ⟨hkept, fun file hfile => Tally.mem_dependencies.1 (hlifted file hfile)⟩
  obtain ⟨o, hrun, hexit, -⟩ := outcome_words twice [] ["a.json", "a.json"] hends
  obtain ⟨s, files, hwrites, hlists⟩ := mem_listed_of_loads parse_words rfl rfl hrun hexit
  obtain ⟨scope, read, hscope, hsource, hlisted⟩ := hlists "main.json" (List.mem_singleton.2 rfl)
  -- all of it is what the directory holds
  obtain rfl : s = setup twice [] := Subsingleton.elim _ _
  have hinitial : Define.rootScope (setup twice []).defines = .ok Scope.initial := rfl
  obtain rfl : Scope.initial = scope := Except.ok.inj (hinitial.symm.trans hscope)
  obtain rfl : source twice [] = read :=
    Except.ok.inj ((readProgram_source twice [] hreadable).symm.trans hsource)
  exact ⟨⟨parse_words, rfl, rfl⟩, o, hrun, hexit, files, hwrites,
    hlisted hexposes "a.json" (loads_of_needsFile hneeds)⟩

/-- The END comes once the file is loaded. The dependency on the file is behind it. -/
theorem unlisted_lateEnd :
    (Arguments.parse assembleFlags words = .ok arguments ∧ arguments.isOn "h" = false ∧
      (arguments.value "d").isEmpty = false ∧ Text.ofString "main.json" ∈ arguments.rest) ∧
    (∃ o, (assemble (directory lateEnd [equate]) words).outcome = .ok o ∧ o.exit = 0 ∧
      o.writes = [(arguments.value "d", dependencyRule (directory lateEnd [equate]) (arguments.value "d") [])]) ∧
    Define.rootScope (setup lateEnd [equate]).defines = .ok Scope.initial ∧
    readProgram (directory lateEnd [equate]).files "main.json" = .ok (source lateEnd [equate]) ∧
    (setup lateEnd [equate]).assembler.Loads Scope.initial (source lateEnd [equate]) "a.json" := by
  obtain ⟨hreadable, hends, hneeds⟩ :
      (readProgram (directory lateEnd [equate]).files "main.json").toOption.isSome = true ∧
        ((Sample.run lateEnd [equate]).1.toOption.map fun p => (p.dependencies, p.reporter.failed)) = some ([], false) ∧
        needsFile lateEnd [equate] = true := by
    decide +kernel
  exact ⟨⟨parse_words, rfl, rfl, List.mem_singleton.2 rfl⟩, outcome_words lateEnd [equate] [] hends, rfl,
    readProgram_source _ _ hreadable, loads_of_needsFile hneeds⟩

/-- An IF that only the linker can decide. The dependency stays in its arm. -/
example :
    let out := (setup [] []).assembler.assemble Scope.initial
      [.cond Location.none [.mk (.identifier Location.none "X")
          [.inclusion Location.none (.quoted Location.none "a.json") none]] none false,
        .declare Location.none (.externally none) [.identifier Location.none "X"]]
    listed out = [] ∧ Token.allFiles out.tokens = ["a.json"] ∧ ∀ t ∈ out.tokens, t.fails = false := by
  decide +kernel

end Cli

end MacroAsm
