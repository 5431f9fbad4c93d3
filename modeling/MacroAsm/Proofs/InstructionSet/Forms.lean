import Mathlib.Data.List.Nodup
import MacroAsm.Proofs.InstructionSet.Lookup

/-!
# The forms of a mnemonic

The forms of a mnemonic are listed in increasing order of their spellings. The order leaves no choice, because two
forms of one mnemonic are never spelled alike: the canonical spelling of an operand stands for that operand alone
(`OperandPattern.ofSpelling?_spelling`) and holds no comma, so that the spelling of a form gives its operands
(`Form.operands_eq_of_spelling`), and these tell descriptors with the same mnemonic apart.

* `InstructionSet.entries_of_compile`: the group of a mnemonic has one entry for each descriptor with that mnemonic.
* `InstructionSet.eq_forms`: whatever holds these forms in order of their spellings is the list of forms.
* `InstructionSet.compile_forms`: the forms are strictly increasing, and do not depend on the order of descriptors.
-/

namespace MacroAsm

namespace Text

/-- The bytes of texts with a byte between neighbours. -/
theorem bytes_join (b : UInt8) (ts : List Text) : (join ⟨[b]⟩ ts).bytes = [b].intercalate (ts.map bytes) := by
  induction ts using join.induct with
  | case1 => rfl
  | case2 t => simp [join]
  | case3 t u rest ih =>
    simp only [join, bytes_append, ih, List.map_cons, List.intercalate_cons_cons, List.append_assoc]

/-- Texts without a byte can be told from the text that has this byte between neighbours. -/
theorem eq_of_join_eq {b : UInt8} {ts us : List Text} (hts : ∀ t ∈ ts, b ∉ t.bytes) (hus : ∀ u ∈ us, b ∉ u.bytes)
    (htne : ts ≠ []) (hune : us ≠ []) (h : join ⟨[b]⟩ ts = join ⟨[b]⟩ us) : ts = us := by
  have hsplit : ∀ {vs : List Text}, (∀ v ∈ vs, b ∉ v.bytes) → vs ≠ [] →
      (join ⟨[b]⟩ vs).bytes.splitOn b = vs.map bytes := by
    intro vs hvs hne
    rw [bytes_join]
    exact List.splitOn_intercalate b (by simpa using hvs) (by simpa using hne)
  have hbytes : ts.map bytes = us.map bytes := by
    rw [← hsplit hts htne, ← hsplit hus hune, h]
  exact List.map_injective_iff.2 (fun t u htu => congrArg mk htu) hbytes

end Text

namespace OperandPattern

/-- Everything that an operand of a descriptor can stand for. -/
def all : List OperandPattern :=
  memory ++ (OperandCode.registers ++ OperandCode.conditions).map fun entry => ⟨entry.1, entry.2, none⟩

variable {spelling : Text} {p : OperandPattern}

/-- What an operand is spelled as is one of the things it can stand for. -/
theorem mem_all_of_ofSpelling? (h : ofSpelling? spelling = some p) : p ∈ all := by
  have hnamed : ∀ {names : List (Text × OperandCode)} {name : Text} {c : OperandCode},
      names.lookup name = some c → (name, c) ∈ names := by
    intro names name c hc
    obtain ⟨before, after, rfl, -⟩ := List.lookup_eq_some_iff.1 hc
    exact List.mem_append_right _ List.mem_cons_self
  rw [ofSpelling?] at h
  split at h
  · rename_i q hq
    cases h
    exact List.mem_append_left _ (List.mem_of_find?_eq_some hq)
  · refine List.mem_append_right _ (List.mem_map.2 ?_)
    dsimp only at h
    split at h
    · rename_i c hc
      cases h
      exact ⟨_, List.mem_append_left _ (hnamed hc), rfl⟩
    · obtain ⟨c, hc, rfl⟩ := Option.map_eq_some_iff.1 h
      exact ⟨_, List.mem_append_right _ (hnamed hc), rfl⟩

theorem ofSpelling?_spelling (h : ofSpelling? spelling = some p) : ofSpelling? p.spelling = some p := by
  have hall : ∀ p ∈ all, ofSpelling? p.spelling = some p := by decide +kernel
  exact hall p (mem_all_of_ofSpelling? h)

theorem comma_notMem_spelling (h : ofSpelling? spelling = some p) : 44 ∉ p.spelling.bytes := by
  have hall : ∀ p ∈ all, 44 ∉ p.spelling.bytes := by decide +kernel
  exact hall p (mem_all_of_ofSpelling? h)

end OperandPattern

/-- Forms of one mnemonic that are spelled alike have the same operands, if there is no comma in the operands. -/
theorem Form.operands_eq_of_spelling {f g : Form} (hf : ∀ o ∈ f.operands, 44 ∉ o.bytes)
    (hg : ∀ o ∈ g.operands, 44 ∉ o.bytes) (hmnemonic : f.mnemonic = g.mnemonic) (h : f.spelling = g.spelling) :
    f.operands = g.operands := by
  -- a form without operands is spelled by the mnemonic alone, so that the other one is no longer than that
  have hlonger : ∀ t : Text, g.mnemonic ≠ g.mnemonic ++ " " ++ t := by
    intro t heq
    have hlength := congrArg Text.length heq
    have hblank : Text.length (Text.ofString " ") = 1 := rfl
    rw [Text.length_append, Text.length_append, hblank] at hlength
    omega
  rw [spelling, spelling, hmnemonic] at h
  split at h
  · rename_i hf'
    split at h
    · rename_i hg'
      rw [List.isEmpty_iff.1 hf', List.isEmpty_iff.1 hg']
    · exact absurd h (hlonger _)
  · rename_i hf'
    split at h
    · exact absurd h.symm (hlonger _)
    · rename_i hg'
      have hbytes := congrArg Text.bytes h
      rw [Text.bytes_append, Text.bytes_append _ (Text.join "," g.operands)] at hbytes
      exact Text.eq_of_join_eq hf hg (by simpa using hf') (by simpa using hg')
        (congrArg Text.mk (List.append_cancel_left hbytes))

namespace Descriptor

/-- What the operands stand for is what their canonical spellings stand for. -/
theorem map_ofSpelling?_form (d : Descriptor) : d.form.operands.map OperandPattern.ofSpelling? = d.shapes.map some := by
  rw [form, List.map_map]
  refine List.map_congr_left fun p hp => ?_
  obtain ⟨operand, -, hoperand⟩ := List.mem_filterMap.1 hp
  exact OperandPattern.ofSpelling?_spelling hoperand

/-- There is no comma in the operands of a form. -/
theorem comma_notMem_operands {d : Descriptor} : ∀ o ∈ d.form.operands, 44 ∉ o.bytes := by
  intro o ho
  obtain ⟨p, hp, rfl⟩ := List.mem_map.1 ho
  obtain ⟨operand, -, hoperand⟩ := List.mem_filterMap.1 hp
  exact OperandPattern.comma_notMem_spelling hoperand

/-- Descriptors with one mnemonic whose forms are spelled alike have the same operands. -/
theorem codes_eq_of_spelling {d e : Descriptor} (hmnemonic : d.mnemonic.upper = e.mnemonic.upper)
    (h : d.form.spelling = e.form.spelling) : d.codes = e.codes := by
  have hoperands : d.form.operands = e.form.operands :=
    Form.operands_eq_of_spelling comma_notMem_operands comma_notMem_operands hmnemonic h
  have hshapes : d.shapes.map some = e.shapes.map some := by
    rw [← map_ofSpelling?_form, ← map_ofSpelling?_form, hoperands]
  rw [codes, codes, List.map_injective_iff.2 (Option.some_injective _) hshapes]

theorem Apart.symm {d e : Descriptor} (h : d.Apart e) : e.Apart d := fun hmnemonic hcodes =>
  h hmnemonic.symm hcodes.symm

end Descriptor

namespace InstructionSet

/-- The descriptors with a mnemonic, in any letter case. -/
def describing (ds : List Descriptor) (mnemonic : Text) : List Descriptor :=
  ds.filter fun d => d.mnemonic.upper == mnemonic.upper

variable {t t' : InstructionSet} {similarity : Similarity} {ds ds' : List Descriptor}

/-- Descriptors that are taken are added to the groups of their mnemonics, in their order. -/
theorem group?_addAll (ht : Increasing t.groups) {index : Nat} (h : addAll index ds t = .ok t') (mnemonic : Text) :
    (t'.group? mnemonic.upper).getD [] = (t.group? mnemonic.upper).getD [] ++
      (describing ds mnemonic).map fun d => (OperandCode.key d.codes, d.form) := by
  induction ds generalizing t index with
  | nil =>
    cases h
    simp [describing]
  | cons d rest ih =>
    rw [addAll] at h
    split at h
    · cases h
    · rename_i key form hcompile
      obtain ⟨-, rfl, rfl⟩ := Descriptor.compile_eq_ok_iff.1 hcompile
      split at h
      · cases h
      · rw [ih (ht.insertForm _ _) h, group?, lookup_insertForm ht, describing, describing, List.filter_cons]
        by_cases hname : mnemonic.upper = d.mnemonic.upper
        · have hform : mnemonic.upper = d.form.mnemonic := hname
          rw [if_pos hform, if_pos (beq_iff_eq.2 hname.symm), List.map_cons, Option.getD_some, List.append_assoc,
            List.singleton_append]
          rfl
        · have hform : mnemonic.upper ≠ d.form.mnemonic := hname
          rw [if_neg hform, if_neg fun heq => hname (beq_iff_eq.1 heq).symm]
          rfl

/-- The group of a mnemonic has one entry for each descriptor with that mnemonic. -/
theorem entries_of_compile (h : compile similarity ds = .ok t) (mnemonic : Text) :
    ((t.group? mnemonic.upper).getD []).map Prod.snd = (describing ds mnemonic).map Descriptor.form := by
  rw [group?_addAll (t := empty similarity) List.Pairwise.nil h mnemonic, List.map_append, List.map_map]
  rfl

/-- The forms of a mnemonic are those of the descriptors. -/
theorem forms_perm (h : compile similarity ds = .ok t) (mnemonic : Text) :
    (t.forms mnemonic).Perm ((describing ds mnemonic).map Descriptor.form) := by
  rw [forms, entries_of_compile h]
  exact List.mergeSort_perm _ _

theorem apart_of_compile (h : compile similarity ds = .ok t) : ds.Pairwise Descriptor.Apart :=
  ((addAll_eq_ok (holds_empty similarity) List.Pairwise.nil 0 ds).1.1 ⟨t, h⟩).2

/-- The forms of the descriptors with one mnemonic are spelled differently. -/
theorem spelling_ne_of_compile (h : compile similarity ds = .ok t) (mnemonic : Text) :
    ((describing ds mnemonic).map Descriptor.form).Pairwise fun f g => f.spelling ≠ g.spelling := by
  rw [List.pairwise_map]
  refine ((apart_of_compile h).filter _).imp_of_mem fun {d e} hd he hapart hspelling => ?_
  have hmnemonic : d.mnemonic.upper = e.mnemonic.upper := by
    rw [beq_iff_eq.1 (List.mem_filter.1 hd).2, beq_iff_eq.1 (List.mem_filter.1 he).2]
  exact hapart hmnemonic (Descriptor.codes_eq_of_spelling hmnemonic hspelling)

/-- The forms are in order of their spellings. -/
theorem forms_pairwise_ble (t : InstructionSet) (mnemonic : Text) :
    (t.forms mnemonic).Pairwise fun f g => f.spelling.ble g.spelling = true := by
  have htrans : ∀ f g k : Form, f.spelling.ble g.spelling = true → g.spelling.ble k.spelling = true →
      f.spelling.ble k.spelling = true := fun _ _ _ => Text.ble_trans
  have htotal : ∀ f g : Form, (f.spelling.ble g.spelling || g.spelling.ble f.spelling) = true :=
    fun _ _ => Text.ble_total _ _
  rw [forms]
  exact List.pairwise_mergeSort htrans htotal _

/-- The spellings of the forms of a mnemonic are distinct. -/
theorem nodup_spellings (h : compile similarity ds = .ok t) (mnemonic : Text) :
    ((t.forms mnemonic).map Form.spelling).Nodup := by
  rw [List.Nodup, List.pairwise_map]
  exact (spelling_ne_of_compile h mnemonic).perm (forms_perm h mnemonic).symm Ne.symm

/-- No two forms of a mnemonic are spelled alike, so that their order is strict. -/
theorem forms_pairwise_blt (h : compile similarity ds = .ok t) (mnemonic : Text) :
    (t.forms mnemonic).Pairwise fun f g => f.spelling.blt g.spelling = true := by
  have hne := List.pairwise_map.1 (nodup_spellings h mnemonic)
  exact ((forms_pairwise_ble t mnemonic).and hne).imp fun hfg => Text.blt_of_ble_of_ne hfg.1 hfg.2

/-- Whatever holds the forms of the descriptors in order of their spellings is the list of forms. -/
theorem eq_forms (h : compile similarity ds = .ok t) {mnemonic : Text} {fs : List Form}
    (hperm : fs.Perm ((describing ds mnemonic).map Descriptor.form))
    (hfs : fs.Pairwise fun f g => f.spelling.ble g.spelling = true) : fs = t.forms mnemonic := by
  have hsame : fs.Perm (t.forms mnemonic) := hperm.trans (forms_perm h mnemonic).symm
  refine hsame.eq_of_pairwise (fun f g hf hg hfg hgf => ?_) hfs (forms_pairwise_ble t mnemonic)
  -- two forms that may stand either way round are spelled alike, and there is one form of a spelling
  exact List.inj_on_of_nodup_map (nodup_spellings h mnemonic) (hsame.mem_iff.1 hf) hg (Text.ble_antisymm hfg hgf)

/-- Descriptors in another order make an instruction set as well. -/
theorem exists_compile_of_perm (h : compile similarity ds = .ok t) (hperm : ds'.Perm ds) :
    ∃ t', compile similarity ds' = .ok t' := by
  refine (addAll_eq_ok (holds_empty similarity) List.Pairwise.nil 0 ds').1.2 ⟨fun d hd => ?_, ?_⟩
  · exact wellFormed_of_compile h d (hperm.mem_iff.1 hd)
  · exact (apart_of_compile h).perm hperm.symm Descriptor.Apart.symm

/-- The forms of a mnemonic are the forms of the descriptors with that mnemonic, each of them once, in strictly
increasing order of their spellings. No other list holds them in an order of their spellings, and descriptors in any
other order make an instruction set with the same forms. -/
theorem compile_forms (h : compile similarity ds = .ok t) (mnemonic : Text) :
    (t.forms mnemonic).Perm ((describing ds mnemonic).map Descriptor.form) ∧
      (t.forms mnemonic).Pairwise (fun f g => f.spelling.blt g.spelling = true) ∧
      (∀ fs : List Form, fs.Perm ((describing ds mnemonic).map Descriptor.form) →
        fs.Pairwise (fun f g => f.spelling.ble g.spelling = true) → fs = t.forms mnemonic) ∧
      ∀ ds' : List Descriptor, ds'.Perm ds →
        ∃ t', compile similarity ds' = .ok t' ∧ t'.forms mnemonic = t.forms mnemonic := by
  refine ⟨forms_perm h mnemonic, forms_pairwise_blt h mnemonic, fun _ => eq_forms h, fun ds' hperm => ?_⟩
  obtain ⟨t', ht'⟩ := exists_compile_of_perm h hperm
  refine ⟨t', ht', eq_forms h ?_ (forms_pairwise_ble t' mnemonic)⟩
  exact (forms_perm ht' mnemonic).trans ((hperm.filter _).map _)

/-- Three loads and a NOP, in this order or backwards. The loads are listed by their spellings, in which `#` comes
before the letters and these before the bracket. -/
theorem compile_forms_loads :
    let ds : List Descriptor :=
      [⟨"ld", ["a", "[HL]"], "45"⟩, ⟨"NOP", [], "FF"⟩, ⟨"Ld", ["A", " b "], "41"⟩, ⟨"LD", ["A", "#nn"], "B0"⟩]
    let loads : List Form :=
      [⟨"LD", ["A", "#nn"], [0xB0], [⟨1, false⟩]⟩, ⟨"LD", ["A", "B"], [0x41], []⟩, ⟨"LD", ["A", "[HL]"], [0x45], []⟩]
    ∃ t, compile .edits ds = .ok t ∧ t.forms "lD" = loads ∧
      (t.forms "lD").Pairwise (fun f g => f.spelling.blt g.spelling = true) ∧
      ∃ t', compile .edits ds.reverse = .ok t' ∧ t'.forms "lD" = loads := by
  intro ds loads
  obtain ⟨t, ht⟩ : ∃ t, compile .edits ds = .ok t := ⟨_, rfl⟩
  obtain ⟨-, hstrict, hunique, horder⟩ := compile_forms ht "lD"
  have hloads : loads = t.forms "lD" := hunique loads (by decide +kernel) (by decide +kernel)
  obtain ⟨t', ht', hforms⟩ := horder ds.reverse ds.reverse_perm
  exact ⟨t, ht, hloads.symm, hstrict, t', ht', hforms.trans hloads.symm⟩

end InstructionSet

end MacroAsm
