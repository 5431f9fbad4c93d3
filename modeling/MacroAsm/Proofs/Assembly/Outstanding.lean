import MacroAsm.Proofs.Assembly.Encoding
import MacroAsm.Proofs.Assembly.Entry

/-!
# Names that output waits for

The names that a piece of output waits for come with its expressions. No step makes new ones: what is encoded
of an instruction or a data statement, a jump that is left to the linker, and the arm of a decided IF wait for
names only that the token waited for of which they were made.
-/

namespace MacroAsm

namespace Token

section Names

variable {f g h : Expr → List Text} {name : Text}

mutual

/-- If a name in an expression is found by one of two readings, then so is a name in a token. -/
theorem mem_names_or (hor : ∀ e, name ∈ f e → name ∈ g e ∨ name ∈ h e) :
    ∀ t : Token, name ∈ t.names f → name ∈ t.names g ∨ name ∈ t.names h := by
  intro t ht
  -- the expressions of a list
  have hlist : ∀ {es : List Expr}, name ∈ es.flatMap f → name ∈ es.flatMap g ∨ name ∈ es.flatMap h := by
    intro es hname
    obtain ⟨e, he, hname⟩ := List.mem_flatMap.1 hname
    exact (hor e hname).imp (fun hg => List.mem_flatMap.2 ⟨e, he, hg⟩)
      fun hh => List.mem_flatMap.2 ⟨e, he, hh⟩
  cases t with
  | cond loc clauses otherwise assembled =>
    rw [names, List.mem_append] at ht
    rw [names, names, List.mem_append, List.mem_append]
    rcases ht with ht | ht
    · exact (mem_clauseNames_or hor assembled clauses ht).imp Or.inl Or.inl
    · exact (mem_optionNames_or hor assembled otherwise ht).imp Or.inr Or.inr
  | display | data | dispatch => exact hlist ht
  | immediate | branch | allocate | align => exact hor _ ht
  | _ => exact absurd ht List.not_mem_nil

/-- So is a name in the tokens of a list. -/
theorem mem_allNames_or (hor : ∀ e, name ∈ f e → name ∈ g e ∨ name ∈ h e) :
    ∀ ts : List Token, name ∈ allNames f ts → name ∈ allNames g ts ∨ name ∈ allNames h ts := by
  intro ts hts
  cases ts with
  | nil => exact absurd hts List.not_mem_nil
  | cons t rest =>
    rw [allNames, List.mem_append] at hts
    rw [allNames, allNames, List.mem_append, List.mem_append]
    rcases hts with ht | hrest
    · exact (mem_names_or hor t ht).imp Or.inl Or.inl
    · exact (mem_allNames_or hor rest hrest).imp Or.inr Or.inr

/-- So is a name in arms. -/
theorem mem_clauseNames_or (hor : ∀ e, name ∈ f e → name ∈ g e ∨ name ∈ h e) (assembled : Bool) :
    ∀ cs : List Clause, name ∈ clauseNames f assembled cs →
      name ∈ clauseNames g assembled cs ∨ name ∈ clauseNames h assembled cs := by
  intro cs hcs
  cases cs with
  | nil => exact absurd hcs List.not_mem_nil
  | cons c rest =>
    cases c with
    | mk test body =>
      rw [clauseNames, List.mem_append, List.mem_append] at hcs
      rw [clauseNames, clauseNames, List.mem_append, List.mem_append, List.mem_append, List.mem_append]
      rcases hcs with htest | hbody | hrest
      · exact (hor test htest).imp Or.inl Or.inl
      · cases assembled with
        | false => exact absurd hbody List.not_mem_nil
        | true =>
          exact (mem_allNames_or hor body hbody).imp (fun hg => Or.inr (Or.inl hg))
            fun hh => Or.inr (Or.inl hh)
      · exact (mem_clauseNames_or hor assembled rest hrest).imp (fun hg => Or.inr (Or.inr hg))
          fun hh => Or.inr (Or.inr hh)

/-- So is a name in an optional body. -/
theorem mem_optionNames_or (hor : ∀ e, name ∈ f e → name ∈ g e ∨ name ∈ h e) (assembled : Bool) :
    ∀ o : Option (List Token), name ∈ optionNames f assembled o →
      name ∈ optionNames g assembled o ∨ name ∈ optionNames h assembled o := by
  intro o ho
  cases o with
  | none => exact absurd ho List.not_mem_nil
  | some body =>
    cases assembled with
    | false => exact absurd ho List.not_mem_nil
    | true => exact mem_allNames_or hor body ho

end

end Names

/-- The names in the tokens of a list are those in each of them. -/
theorem mem_allNames_iff {f : Expr → List Text} {name : Text} {ts : List Token} :
    name ∈ allNames f ts ↔ ∃ t ∈ ts, name ∈ t.names f := by
  induction ts with
  | nil => simp [allNames]
  | cons t rest ih => simp [allNames, ih]

/-- The names in the body of an assembled arm are among those in the arms. -/
theorem mem_clauseNames {f : Expr → List Text} {name : Text} {clauses : List Clause} {c : Clause}
    (hc : c ∈ clauses) (hname : name ∈ allNames f c.body) : name ∈ clauseNames f true clauses := by
  induction clauses with
  | nil => cases hc
  | cons first rest ih =>
    obtain ⟨test, body⟩ := first
    rw [clauseNames, List.mem_append, List.mem_append]
    rcases List.mem_cons.1 hc with rfl | hc
    · exact Or.inr (Or.inl hname)
    · exact Or.inr (Or.inr (ih hc))

/-- What takes the place of a decided IF waits for names only that the IF waits for. -/
theorem requested_of_decision? {t : Token} {ts : List Token} (h : t.decision? = some ts) {t' : Token}
    (ht' : t' ∈ ts) : t'.requested ⊆ t.requested := by
  intro name hname
  obtain ⟨loc, clauses, otherwise, rfl, hfrom⟩ := decision?_cases h
  have hall : name ∈ allNames Expr.requested ts := mem_allNames_iff.2 ⟨t', ht', hname⟩
  rw [requested, names, List.mem_append]
  rcases hfrom with ⟨c, hc, rfl⟩ | rfl
  · exact Or.inl (mem_clauseNames hc hall)
  · cases otherwise with
    | none => exact absurd ht' List.not_mem_nil
    | some body => exact Or.inr hall

end Token

/-- A jump that is left to the linker waits for names only that the instruction waits for. -/
theorem Finish.requested_relaxDispatch (bankSwitched : Bool) (d : Dispatch) :
    (relaxDispatch bankSwitched d).1.requested ⊆ (Token.dispatch d).requested := by
  rcases relaxDispatch_cases bankSwitched d with heq | ⟨b, heq, htarget, -⟩
  · rw [heq]
    exact List.Subset.refl _
  · rw [heq]
    exact fun name hname => List.mem_flatMap.2 ⟨b.target, htarget, hname⟩

/-- The value of an operand waits for names only that its expression waits for. -/
theorem Operand.requested_of_ofExpr {e v : Expr} {o : Operand} (h : ofExpr e = .ok o) (hv : o.value = some v) :
    v.requested = e.requested := by
  cases e with
  | register | condition =>
    rw [ofExpr] at h
    split at h <;> cases h
    cases hv
  | indirect | indexed | displaced | offset =>
    rw [ofExpr] at h
    repeat' split at h
    all_goals cases h
    all_goals cases hv
    all_goals rfl
  | _ =>
    cases h
    cases hv
    rfl

/-- The values of operands wait for names only that their expressions wait for. -/
theorem Operand.requested_of_ofExprs {es : List Expr} {os : List Operand} (h : ofExprs es = .ok os) {v : Expr}
    (hv : v ∈ os.filterMap Operand.value) : v.requested ⊆ es.flatMap Expr.requested := by
  induction es generalizing os with
  | nil =>
    cases h
    cases hv
  | cons e rest ih =>
    rw [ofExprs] at h
    cases hfirst : ofExpr e with
    | error d =>
      rw [hfirst] at h
      cases h
    | ok o =>
      rw [hfirst] at h
      obtain ⟨os', hrest, heq⟩ := Except.bind_eq_ok_iff.1 h
      cases heq
      rw [List.flatMap_cons]
      obtain ⟨o', ho', hvalue⟩ := List.mem_filterMap.1 hv
      rcases List.mem_cons.1 ho' with rfl | ho'
      · rw [requested_of_ofExpr hfirst hvalue]
        exact List.subset_append_left _ _
      · have hlater := ih hrest (List.mem_filterMap.2 ⟨o', ho', hvalue⟩)
        exact List.Subset.trans hlater (List.subset_append_right _ _)

namespace Encode

/-- What is encoded of an instruction waits for names only that the instruction waits for. -/
theorem requested_of_instruction {table : InstructionSet} {mnemonic : Text} {d : Dispatch} {ts : List Token}
    (h : instruction table mnemonic d = .ok ts) {t : Token} (ht : t ∈ ts) :
    t.requested ⊆ (Token.dispatch d).requested := by
  rcases instruction_cases h ht with ⟨loc, text, rfl⟩ | ⟨loc, data, rfl⟩ |
    ⟨operands, value, loc, size, signed, rfl, -, hoperands, hvalue⟩
  · exact List.nil_subset _
  · exact List.nil_subset _
  · exact Operand.requested_of_ofExprs hoperands hvalue

/-- What is encoded of data waits for names only that its elements wait for. -/
theorem requested_of_data {kind : DataKind} {values : List Expr} {ts : List Token}
    (h : data kind values = .ok ts) {t : Token} (ht : t ∈ ts) :
    t.requested ⊆ values.flatMap Expr.requested := by
  rcases data_cases h ht with ⟨loc, text, rfl⟩ | ⟨loc, written, rfl⟩ | ⟨loc, group, rfl, hgroup⟩
  · exact List.nil_subset _
  · exact List.nil_subset _
  · intro name hname
    obtain ⟨e, he, hname⟩ := List.mem_flatMap.1 hname
    exact List.mem_flatMap.2 ⟨e, (hgroup e he).1, hname⟩

end Encode

end MacroAsm
