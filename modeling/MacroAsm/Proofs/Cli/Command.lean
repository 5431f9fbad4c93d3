import MacroAsm.Cli.Flag

/-!
# Running commands

`Command.exec` carries a command out on a console. A command is put together from cautious ones
(`Command.Cautious`), which write no file and never end the program with success, and from the few that do. Where
the whole succeeds, every cautious part of it gave a result (`Command.Cautious.succeeds_bind`).
-/

namespace MacroAsm

namespace Cli

namespace Command

variable {α β : Type} {x : Command α} {k : α → Command β} {a : α} {c c' c₁ : Console}

/-- What a command gives, or why it stops, and the console it leaves. -/
def exec (x : Command α) (c : Console) : Except Halt α × Console := (ExceptT.run x).run c

/-- A command after another goes on with its result, unless that stopped. -/
theorem exec_bind (x : Command α) (k : α → Command β) (c : Console) :
    (x >>= k).exec c =
      match x.exec c with
      | (.ok a, c') => (k a).exec c'
      | (.error h, c') => (.error h, c') := by
  simp only [exec, ExceptT.run_bind, StateT.run_bind]
  rcases ((ExceptT.run x).run c) with ⟨r, c'⟩
  cases r <;> rfl

theorem exec_bind_of_ok (h : x.exec c = (.ok a, c')) : (x >>= k).exec c = (k a).exec c' := by
  rw [exec_bind, h]

theorem exec_bind_of_error {halt : Halt} (h : x.exec c = (.error halt, c')) :
    (x >>= k).exec c = (.error halt, c') := by
  rw [exec_bind, h]

/-- A result comes from the results of the parts. -/
theorem exists_of_exec_bind {b : β} (h : (x >>= k).exec c = (.ok b, c')) :
    ∃ a c₁, x.exec c = (.ok a, c₁) ∧ (k a).exec c₁ = (.ok b, c') := by
  rcases hx : x.exec c with ⟨r, c₁⟩
  cases r with
  | ok a => exact ⟨a, c₁, rfl, by rwa [exec_bind_of_ok hx] at h⟩
  | error halt =>
    rw [exec_bind_of_error hx] at h
    cases h

/-- The result of a computation that has one. -/
theorem exec_require_of_ok (title : Text) {r : Except Cause α} (h : r = .ok a) (c : Console) :
    (require title r).exec c = (.ok a, c) := by
  subst h
  rfl

/-- A required result is the one of the computation. -/
theorem eq_ok_of_exec_require {title : Text} {r : Except Cause α} (h : (require title r).exec c = (.ok a, c')) :
    r = .ok a ∧ c' = c := by
  cases r with
  | ok b =>
    cases h
    exact ⟨rfl, rfl⟩
  | error cause => cases cause <;> cases h

/-- Flags that can be read are read without a word. -/
theorem exec_readArguments {known : List Flag} {args : List Text} {given : Arguments}
    (h : Arguments.parse known args = .ok given) (command : Text) (c : Console) :
    (readArguments command known args).exec c = (.ok given, c) := by
  rw [readArguments, h]
  rfl

/-- A command that writes no file, and ends the program only with a failure. -/
structure Cautious (x : Command α) : Prop where
  /-- No file is written. -/
  writes : ∀ c, (x.exec c).2.writesReversed = c.writesReversed
  /-- An end is a failure. -/
  fails : ∀ c c', x.exec c ≠ (.error (.exit 0), c')

namespace Cautious

theorem pure (a : α) : Cautious (Pure.pure a : Command α) := ⟨fun _ => rfl, fun _ _ h => by cases h⟩

/-- A command that goes on with the result of another. -/
theorem bind (hx : Cautious x) (hk : ∀ a, Cautious (k a)) : Cautious (x >>= k) where
  writes c := by
    have hwrites := hx.writes c
    rcases hexec : x.exec c with ⟨r, c'⟩
    rw [hexec] at hwrites
    cases r with
    | ok a =>
      rw [exec_bind_of_ok hexec]
      exact ((hk a).writes c').trans hwrites
    | error halt => rwa [exec_bind_of_error hexec]
  fails c c' h := by
    rcases hexec : x.exec c with ⟨r, c₁⟩
    cases r with
    | ok a =>
      rw [exec_bind_of_ok hexec] at h
      exact (hk a).fails c₁ c' h
    | error halt =>
      rw [exec_bind_of_error hexec] at h
      obtain ⟨hhalt, -⟩ := Prod.mk.inj h
      cases hhalt
      exact hx.fails c c₁ hexec

theorem print (t : Text) : Cautious (Command.print t) := ⟨fun _ => rfl, fun _ _ h => by cases h⟩

theorem complain (t : Text) : Cautious (Command.complain t) := ⟨fun _ => rfl, fun _ _ h => by cases h⟩

theorem needsFile (path : Text) : Cautious (throw (.needsFile path) : Command α) :=
  ⟨fun _ => rfl, fun _ _ h => by cases h⟩

/-- The end with a failure. -/
theorem exit {code : Nat} (h : code ≠ 0) : Cautious (Command.exit code : Command α) where
  writes _ := rfl
  fails c c' hexec := by
    obtain ⟨hhalt, -⟩ := Prod.mk.inj hexec
    exact h (Halt.exit.inj (Except.error.inj hhalt))

theorem fail (line : Text) : Cautious (Command.fail line : Command α) :=
  .bind (.complain _) fun _ => .exit Nat.one_ne_zero

/-- The result of a computation, or its cause. -/
theorem attempt (r : Except Cause α) : Cautious (Command.attempt r) := by
  cases r with
  | ok a => exact .pure _
  | error cause =>
    cases cause with
    | unread path => exact .needsFile path
    | _ => exact .pure _

/-- The result of a computation. -/
theorem require (title : Text) (r : Except Cause α) : Cautious (Command.require title r) := by
  refine .bind (.attempt r) fun result => ?_
  cases result with
  | ok a => exact .pure a
  | error cause => exact .fail _

end Cautious

/-- A command ends with success. -/
def Succeeds (x : Command PUnit) (c c' : Console) : Prop :=
  x.exec c = (.ok ⟨⟩, c') ∨ x.exec c = (.error (.exit 0), c')

theorem Succeeds.of_bind {k : α → Command PUnit} (h : Succeeds (x >>= k) c c') (hx : x.exec c = (.ok a, c₁)) :
    Succeeds (k a) c₁ c' := by
  rwa [Succeeds, exec_bind_of_ok hx] at h

/-- A cautious part of a command that succeeds gives a result, and writes no file. -/
theorem Cautious.succeeds_bind {k : α → Command PUnit} (hx : Cautious x) (h : Succeeds (x >>= k) c c') :
    ∃ a c₁, x.exec c = (.ok a, c₁) ∧ c₁.writesReversed = c.writesReversed ∧ Succeeds (k a) c₁ c' := by
  have hwrites := hx.writes c
  rcases hexec : x.exec c with ⟨r, c₁⟩
  rw [hexec] at hwrites
  cases r with
  | ok a => exact ⟨a, c₁, rfl, hwrites, h.of_bind hexec⟩
  | error halt =>
    rw [Succeeds, exec_bind_of_error hexec] at h
    rcases h with h | h
    · cases h
    · obtain ⟨hhalt, -⟩ := Prod.mk.inj h
      cases hhalt
      exact absurd hexec (hx.fails c c₁)

/-- A command that ends the program with a failure does not succeed. -/
theorem not_succeeds_exit {code : Nat} (hcode : code ≠ 0) (k : α → Command PUnit) :
    ¬ Succeeds (Command.exit code >>= k) c c' := by
  intro h
  obtain ⟨a, c₁, hexec, -⟩ := (Cautious.exit hcode).succeeds_bind h
  cases hexec

/-- An outcome with success comes from a command that succeeds. -/
theorem succeeds_of_outcome {x : Command PUnit} {o : Outcome} (h : x.outcome = .ok o) (hexit : o.exit = 0) :
    ∃ c', Succeeds x Console.start c' ∧ o.writes = c'.writes := by
  rw [outcome] at h
  rcases hexec : (ExceptT.run x).run Console.start with ⟨r, c'⟩
  rw [hexec] at h
  cases r with
  | ok u =>
    cases h
    exact ⟨c', Or.inl hexec, rfl⟩
  | error halt =>
    cases halt with
    | exit code =>
      cases h
      have hcode : code = 0 := hexit
      subst hcode
      exact ⟨c', Or.inr hexec, rfl⟩
    | needsFile path => cases h
    | needsInput => cases h

/-- A command that ends the program with success has an outcome. -/
theorem outcome_of_exec {x : Command PUnit} (h : x.exec Console.start = (.error (.exit 0), c')) :
    x.outcome = .ok ⟨0, c'.out, c'.err, c'.writes⟩ := by
  rw [exec] at h
  rw [outcome, h]

end Command

end Cli

end MacroAsm
