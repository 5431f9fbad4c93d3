import MacroAsm.InstructionSet.Table
import MacroAsm.Proofs.InstructionSet.Descriptor

/-!
# Looking up forms

An instruction set keeps the forms of a mnemonic together, the mnemonics in increasing order. A form that is entered
is found under its mnemonic and its key, and nothing else changes (`InstructionSet.lookup_insertForm`), so that an
instruction set holds the forms of the descriptors it was made from (`InstructionSet.Holds`).

Since the key of at most two operands tells them from every list of operands, a form is found for exactly the
mnemonics and operands of a descriptor (`InstructionSet.compile_lookup`).
-/

namespace MacroAsm

/-- Two descriptors that do not have both the mnemonic and the operands in common. -/
def Descriptor.Apart (d e : Descriptor) : Prop := d.mnemonic.upper = e.mnemonic.upper → d.codes ≠ e.codes

namespace InstructionSet

/-- Groups in increasing order of their mnemonics. -/
def Increasing (groups : List (Text × List (UInt32 × Form))) : Prop :=
  groups.Pairwise fun a b => a.1.blt b.1 = true

variable {groups : List (Text × List (UInt32 × Form))} {key : UInt32} {form : Form} {name : Text}

/-- A form that is entered adds no mnemonic but its own. -/
theorem mem_insertForm {group : Text × List (UInt32 × Form)} (h : group ∈ insertForm key form groups) :
    group.1 = form.mnemonic ∨ ∃ other ∈ groups, other.1 = group.1 := by
  induction groups with
  | nil =>
    rw [insertForm, List.mem_singleton] at h
    exact Or.inl (by rw [h])
  | cons first rest ih =>
    obtain ⟨n, forms⟩ := first
    rw [insertForm] at h
    split at h
    · rename_i heq
      rcases List.mem_cons.1 h with rfl | h
      · exact Or.inl (eq_of_beq heq)
      · exact Or.inr ⟨group, List.mem_cons_of_mem _ h, rfl⟩
    · split at h
      · rcases List.mem_cons.1 h with rfl | h
        · exact Or.inl rfl
        · exact Or.inr ⟨group, h, rfl⟩
      · rcases List.mem_cons.1 h with rfl | h
        · exact Or.inr ⟨_, List.mem_cons_self, rfl⟩
        · rcases ih h with hown | ⟨other, hother, heq⟩
          · exact Or.inl hown
          · exact Or.inr ⟨other, List.mem_cons_of_mem _ hother, heq⟩

/-- A form that is entered keeps the order of the groups. -/
theorem Increasing.insertForm (h : Increasing groups) (key : UInt32) (form : Form) :
    Increasing (insertForm key form groups) := by
  induction groups with
  | nil => exact List.pairwise_singleton _ _
  | cons first rest ih =>
    obtain ⟨n, forms⟩ := first
    rw [Increasing, List.pairwise_cons] at h
    rw [InstructionSet.insertForm]
    split
    · exact List.pairwise_cons.2 h
    · rename_i hne
      split
      · rename_i hlt
        refine List.pairwise_cons.2 ⟨?_, List.pairwise_cons.2 h⟩
        exact List.forall_mem_cons.2 ⟨hlt, fun b hb => Text.blt_trans hlt (h.1 b hb)⟩
      · rename_i hlt
        refine List.pairwise_cons.2 ⟨fun b hb => ?_, ih h.2⟩
        rcases mem_insertForm hb with hown | ⟨other, hother, heq⟩
        · rw [hown]
          exact Text.blt_of_ne (fun heq => hne (beq_iff_eq.2 heq.symm)) hlt
        · rw [← heq]
          exact h.1 other hother

/-- What a list of groups holds under the mnemonic of its first group, and under others. -/
theorem lookup_group_cons (n : Text) (forms : List (UInt32 × Form)) (name : Text) :
    ((n, forms) :: groups).lookup name = if name = n then some forms else groups.lookup name := by
  rw [List.lookup_cons]
  by_cases hname : name = n
  · simp [hname]
  · simp [hname, beq_false_of_ne hname]

/-- What comes before all groups is not among them. -/
theorem lookup_of_blt (h : ∀ group ∈ groups, name.blt group.1 = true) : groups.lookup name = none := by
  rw [List.lookup_eq_none_iff]
  intro group hgroup
  rw [bne_iff_ne]
  rintro rfl
  exact Text.not_blt_self _ (h group hgroup)

/-- A form that is entered stands last in the group of its mnemonic, and other groups stay as they are. -/
theorem lookup_insertForm (h : Increasing groups) (key : UInt32) (form : Form) (name : Text) :
    (insertForm key form groups).lookup name =
      if name = form.mnemonic then some ((groups.lookup name).getD [] ++ [(key, form)]) else groups.lookup name := by
  induction groups with
  | nil =>
    rw [insertForm, lookup_group_cons]
    rfl
  | cons first rest ih =>
    obtain ⟨n, forms⟩ := first
    rw [Increasing, List.pairwise_cons] at h
    rw [insertForm]
    split
    · rename_i heq
      rw [← eq_of_beq heq, lookup_group_cons, lookup_group_cons]
      split
      · rfl
      · rfl
    · rename_i hne
      split
      · rename_i hlt
        -- the mnemonic comes before all others, and is not among them
        have hnew : ((n, forms) :: rest).lookup form.mnemonic = none :=
          lookup_of_blt (List.forall_mem_cons.2 ⟨hlt, fun group hgroup => Text.blt_trans hlt (h.1 group hgroup)⟩)
        rw [lookup_group_cons form.mnemonic]
        split
        · rename_i hname
          rw [hname, hnew]
          rfl
        · rfl
      · rw [lookup_group_cons, lookup_group_cons, ih h.2]
        by_cases hname : name = n
        · rw [if_pos hname, if_pos hname, if_neg]
          rintro rfl
          exact hne (beq_iff_eq.2 hname.symm)
        · rw [if_neg hname, if_neg hname]

/-- The instruction set of a list of descriptors: it finds the form of each of them under its mnemonic and its key,
and nothing else. -/
structure Holds (t : InstructionSet) (ds : List Descriptor) : Prop where
  /-- The mnemonics are in increasing order. -/
  increasing : Increasing t.groups
  /-- The forms are those of the descriptors. -/
  lookup : ∀ name key form, ((t.group? name).getD []).lookup key = some form ↔
    ∃ d ∈ ds, d.mnemonic.upper = name ∧ OperandCode.key d.codes = key ∧ d.form = form

theorem holds_empty (similarity : Similarity) : Holds (empty similarity) [] := by
  refine ⟨List.Pairwise.nil, fun name key form => ?_⟩
  simp [group?, empty]

/-- An instruction set that takes the form of another descriptor. -/
theorem Holds.insert {t : InstructionSet} {ds : List Descriptor} (h : t.Holds ds) {d : Descriptor}
    (hnew : ((t.group? d.form.mnemonic).getD []).lookup (OperandCode.key d.codes) = none) :
    Holds { t with groups := insertForm (OperandCode.key d.codes) d.form t.groups } (ds ++ [d]) := by
  refine ⟨h.increasing.insertForm _ _, fun name key form => ?_⟩
  have hgroup : group? { t with groups := insertForm (OperandCode.key d.codes) d.form t.groups } name =
      if name = d.form.mnemonic then some ((t.group? name).getD [] ++ [(OperandCode.key d.codes, d.form)])
      else t.group? name := lookup_insertForm h.increasing _ _ _
  have hmem : (∃ e ∈ ds ++ [d], e.mnemonic.upper = name ∧ OperandCode.key e.codes = key ∧ e.form = form) ↔
      ((t.group? name).getD []).lookup key = some form ∨
        d.mnemonic.upper = name ∧ OperandCode.key d.codes = key ∧ d.form = form := by
    rw [h.lookup]
    simp [or_and_right, exists_or]
  rw [hgroup, hmem]
  by_cases hname : name = d.form.mnemonic
  · subst hname
    rw [if_pos rfl, Option.getD_some, List.lookup_append]
    by_cases hkey : key = OperandCode.key d.codes
    · subst hkey
      rw [hnew, List.lookup_cons, beq_self_eq_true]
      simp [Descriptor.form]
    · rw [List.lookup_cons, beq_false_of_ne hkey]
      simp [Ne.symm hkey]
  · have hname' : d.mnemonic.upper ≠ name := fun heq => hname heq.symm
    rw [if_neg hname]
    simp [hname']

/-- A descriptor whose form is there already, or is not, according to the descriptors that were taken. -/
theorem Holds.lookup_eq_none_iff {t : InstructionSet} {ds : List Descriptor} (h : t.Holds ds) {d : Descriptor}
    (hd : d.WellFormed) :
    ((t.group? d.form.mnemonic).getD []).lookup (OperandCode.key d.codes) = none ↔ ∀ e ∈ ds, e.Apart d := by
  have hkey : ∀ e : Descriptor, OperandCode.key e.codes = OperandCode.key d.codes ↔ e.codes = d.codes := fun e =>
    OperandCode.key_eq_iff (fun _ => Descriptor.isDigit_of_mem_codes) (fun _ => Descriptor.isDigit_of_mem_codes)
      (Nat.lt_of_le_of_lt hd.length_codes (by decide))
  rw [Option.eq_none_iff_forall_ne_some]
  constructor
  · intro hnone e he hmnemonic hcodes
    exact hnone e.form ((h.lookup _ _ _).2 ⟨e, he, hmnemonic, (hkey e).2 hcodes, rfl⟩)
  · intro hapart form hform
    obtain ⟨e, he, hmnemonic, hcodes, -⟩ := (h.lookup _ _ _).1 hform
    exact hapart e he hmnemonic ((hkey e).1 hcodes)

/-- Descriptors are taken one after the other as long as they are well-formed and apart from the ones before. -/
theorem addAll_eq_ok {t : InstructionSet} {seen : List Descriptor} (h : t.Holds seen)
    (hseen : seen.Pairwise Descriptor.Apart) (index : Nat) (ds : List Descriptor) :
    ((∃ t', addAll index ds t = .ok t') ↔
        (∀ d ∈ ds, d.WellFormed) ∧ (seen ++ ds).Pairwise Descriptor.Apart) ∧
      ∀ t', addAll index ds t = .ok t' → t'.Holds (seen ++ ds) := by
  -- the descriptors that were taken are what the instruction set holds, and grow by one each time
  induction ds generalizing index t seen with
  | nil =>
    refine ⟨⟨fun _ => ⟨fun d hd => absurd hd List.not_mem_nil, by rwa [List.append_nil]⟩, fun _ => ⟨t, rfl⟩⟩, ?_⟩
    rintro t' ht'
    cases ht'
    rwa [List.append_nil]
  | cons d rest ih =>
    rw [addAll]
    cases hcompile : d.compile with
    | error e =>
      refine ⟨⟨fun ⟨t', ht'⟩ => (by cases ht'), fun ⟨hwell, _⟩ => ?_⟩, fun t' ht' => by cases ht'⟩
      rw [Descriptor.compile_eq_ok_iff.2 ⟨hwell d List.mem_cons_self, rfl, rfl⟩] at hcompile
      cases hcompile
    | ok result =>
      obtain ⟨key, form⟩ := result
      obtain ⟨hd, rfl, rfl⟩ := Descriptor.compile_eq_ok_iff.1 hcompile
      dsimp only
      cases hprevious : ((t.group? d.form.mnemonic).getD []).lookup (OperandCode.key d.codes) with
      | some previous =>
        refine ⟨⟨fun ⟨t', ht'⟩ => (by cases ht'), fun ⟨_, hall⟩ => ?_⟩, fun t' ht' => by cases ht'⟩
        -- the key is taken by a descriptor with the same operands, since there are at most two
        have hapart := (List.pairwise_append.1 hall).2.2
        rw [(h.lookup_eq_none_iff hd).2 fun e he => hapart e he d List.mem_cons_self] at hprevious
        cases hprevious
      | none =>
        have hapart := (h.lookup_eq_none_iff hd).1 hprevious
        have hseen' : (seen ++ [d]).Pairwise Descriptor.Apart := by
          rw [List.pairwise_append]
          refine ⟨hseen, List.pairwise_singleton _ _, fun e he d' hd' => ?_⟩
          rw [List.mem_singleton.1 hd']
          exact hapart e he
        obtain ⟨hiff, hholds⟩ := ih (h.insert hprevious) hseen' (index + 1)
        rw [List.append_assoc, List.singleton_append] at hiff hholds
        refine ⟨hiff.trans ?_, hholds⟩
        rw [List.forall_mem_cons]
        exact ⟨fun ⟨hrest, hall⟩ => ⟨⟨hd, hrest⟩, hall⟩, fun ⟨⟨_, hrest⟩, hall⟩ => ⟨hrest, hall⟩⟩

theorem holds_of_compile {t : InstructionSet} {similarity : Similarity} {ds : List Descriptor}
    (h : compile similarity ds = .ok t) : t.Holds ds :=
  (addAll_eq_ok (holds_empty similarity) List.Pairwise.nil 0 ds).2 t h

theorem wellFormed_of_compile {t : InstructionSet} {similarity : Similarity} {ds : List Descriptor}
    (h : compile similarity ds = .ok t) :
    ∀ d ∈ ds, d.WellFormed :=
  ((addAll_eq_ok (holds_empty similarity) List.Pairwise.nil 0 ds).1.1 ⟨t, h⟩).1

/-- A form is found by the key of operands if it is the form of a descriptor with these operands. -/
theorem Holds.lookup_key_iff {t : InstructionSet} {ds : List Descriptor} (h : t.Holds ds)
    (hds : ∀ d ∈ ds, d.WellFormed) (mnemonic : Text) {codes : List OperandCode} (hcodes : ∀ c ∈ codes, c.IsDigit)
    (form : Form) :
    t.lookup mnemonic (OperandCode.key codes) = .ok form ↔
      ∃ d ∈ ds, d.mnemonic.upper = mnemonic.upper ∧ d.codes = codes ∧ d.form = form := by
  have hlookup : t.lookup mnemonic (OperandCode.key codes) = .ok form ↔
      ((t.group? mnemonic.upper).getD []).lookup (OperandCode.key codes) = some form := by
    rw [InstructionSet.lookup]
    cases t.group? mnemonic.upper with
    | none => simp
    | some forms =>
      simp only [Option.getD_some]
      cases forms.lookup (OperandCode.key codes) with
      | none => simp
      | some found => simp
  rw [hlookup, h.lookup]
  refine exists_congr fun d => and_congr_right fun hd => and_congr_right fun _ => and_congr_left fun _ => ?_
  have hkey := OperandCode.key_eq_iff hcodes (fun _ => Descriptor.isDigit_of_mem_codes)
    (Nat.lt_of_le_of_lt (hds d hd).length_codes (by decide))
  rw [eq_comm, hkey, eq_comm]

/-- Descriptors make an instruction set if they are well-formed and no two of them have both the mnemonic and the
operands in common, and then a form is found for the mnemonic and the operands of a descriptor, and for no others,
however many operands are given. -/
theorem compile_lookup (similarity : Similarity) (ds : List Descriptor) :
    ((∃ t, compile similarity ds = .ok t) ↔ (∀ d ∈ ds, d.WellFormed) ∧ ds.Pairwise Descriptor.Apart) ∧
      ∀ t, compile similarity ds = .ok t → ∀ (mnemonic : Text) (codes : List OperandCode), (∀ c ∈ codes, c.IsDigit) →
        ∀ form, t.lookup mnemonic (OperandCode.key codes) = .ok form ↔
          ∃ d ∈ ds, d.mnemonic.upper = mnemonic.upper ∧ d.codes = codes ∧ d.form = form :=
  ⟨(addAll_eq_ok (holds_empty similarity) List.Pairwise.nil 0 ds).1, fun _ ht mnemonic _ hcodes form =>
    (holds_of_compile ht).lookup_key_iff (wellFormed_of_compile ht) mnemonic hcodes form⟩

/-- Two forms of ADD and one of NOP are an instruction set. Its ADD is found for `A,B`, and for no list that goes on
after that. -/
theorem compile_lookup_sums :
    let ds : List Descriptor := [⟨"add", ["A", " b "], "00"⟩, ⟨"Add", ["a", "#nn"], "02"⟩, ⟨"NOP", [], "FF"⟩]
    ∃ t, compile .edits ds = .ok t ∧
      t.lookup "aDD" (OperandCode.key [0x01, 0x02]) = .ok ⟨"ADD", ["A", "B"], [0x00], []⟩ ∧
      ∀ form, t.lookup "ADD" (OperandCode.key [0x01, 0x02, 0x20, 0x05, 0x07]) ≠ .ok form := by
  intro ds
  obtain ⟨t, ht⟩ : ∃ t, compile .edits ds = .ok t := ⟨_, rfl⟩
  have hlookup := (compile_lookup .edits ds).2 t ht
  refine ⟨t, ht, (hlookup "aDD" [0x01, 0x02] (by simp [OperandCode.IsDigit]) _).2 ?_, fun form hform => ?_⟩
  · exact ⟨_, List.mem_cons_self, by decide +kernel, by decide +kernel, by decide +kernel⟩
  · obtain ⟨d, hd, -, hcodes, -⟩ := (hlookup "ADD" [0x01, 0x02, 0x20, 0x05, 0x07]
      (by simp [OperandCode.IsDigit]) form).1 hform
    have hnone : ∀ d ∈ ds, d.codes ≠ [0x01, 0x02, 0x20, 0x05, 0x07] := by decide +kernel
    exact hnone d hd hcodes

end InstructionSet

end MacroAsm
