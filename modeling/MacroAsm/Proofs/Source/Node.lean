import Mathlib.Data.List.Permutation
import MacroAsm.Proofs.Eval.Action
import MacroAsm.Proofs.Text.Numeral
import MacroAsm.Source.Statement

/-!
# Reading nodes

A node is an object whose members have distinct keys (`Source.HasKeys`). Then their order does not matter: a key is
looked up among the same members (`Json.lookup_perm`), attributes are entered in the order of their keys
(`Source.attributesField_eq`), and an arm or an IF, whose members are read one after the other, is what is looked up
in the end (`Source.readArm_eq`, `Source.readIf_eq`).
-/

namespace MacroAsm

theorem Except.bind_ok {ε α β : Type} {x : Except ε α} {k : α → Except ε β} {a : α} {b : β} (hx : x = .ok a)
    (hk : k a = .ok b) : x >>= k = .ok b :=
  Except.bind_eq_ok_iff.2 ⟨a, hx, hk⟩

/-- Results for the elements of a list are one result for each. -/
theorem Except.mapM_eq_ok_iff {ε α β : Type} {f : α → Except ε β} {xs : List α} {ys : List β} :
    xs.mapM f = .ok ys ↔ List.Forall₂ (fun x y => f x = .ok y) xs ys := by
  induction xs generalizing ys with
  | nil => simp [pure, Except.pure, eq_comm]
  | cons x rest ih =>
    rw [List.mapM_cons, List.forall₂_cons_left_iff, Except.bind_eq_ok_iff]
    simp only [Except.bind_eq_ok_iff, ih, pure, Except.pure, Except.ok.injEq]
    constructor
    · rintro ⟨y, hy, rest', hrest, rfl⟩
      exact ⟨y, rest', hy, hrest, rfl⟩
    · rintro ⟨y, rest', hy, hrest, rfl⟩
      exact ⟨y, hy, rest', hrest, rfl⟩

/-- What holds of two lists one by one holds of them in another way, if it follows for their elements. -/
theorem forall₂_imp_of_mem {α β : Type} {R S : α → β → Prop} {l : List α} {u : List β} (h : List.Forall₂ R l u)
    (hS : ∀ a ∈ l, ∀ b ∈ u, R a b → S a b) : List.Forall₂ S l u := by
  induction h with
  | nil => exact .nil
  | cons hab _ ih =>
    refine .cons (hS _ List.mem_cons_self _ List.mem_cons_self hab) (ih fun a ha b hb => ?_)
    exact hS a (List.mem_cons_of_mem _ ha) b (List.mem_cons_of_mem _ hb)

namespace Json

variable {key : Text} {m : Member} {members others : List Member} {j : Json}

/-- A member that stands last is looked up first. -/
theorem lookup_concat :
    lookup key (members ++ [m]) = if m.key == key then some m.value else lookup key members := by
  rw [lookup, List.reverse_append, List.reverse_singleton, List.singleton_append, List.find?_cons]
  by_cases h : m.key == key
  · simp [h]
  · simp [h, lookup]

/-- A member that stands first is looked up last. -/
theorem lookup_cons :
    lookup key (m :: members) = (lookup key members).or (if m.key == key then some m.value else none) := by
  rw [lookup, List.reverse_cons, List.find?_append, lookup, List.find?_singleton]
  cases List.find? (fun m => m.key == key) members.reverse with
  | some m' => rfl
  | none => by_cases h : m.key == key <;> simp [h]

theorem lookup_cons_of_ne (h : m.key ≠ key) : lookup key (m :: members) = lookup key members := by
  rw [lookup_cons, beq_eq_false_iff_ne.2 h]
  simp

/-- What is looked up is the value of a member. -/
theorem exists_of_lookup (h : lookup key members = some j) : ∃ m ∈ members, m.key = key ∧ m.value = j := by
  obtain ⟨m, hm, hvalue⟩ := Option.map_eq_some_iff.1 h
  have hkey := List.find?_some hm
  exact ⟨m, List.mem_reverse.1 (List.mem_of_find?_eq_some hm), eq_of_beq hkey, hvalue⟩

/-- Without a member of a key there is nothing to look up. -/
theorem lookup_eq_none (h : key ∉ members.map Member.key) : lookup key members = none := by
  cases hj : lookup key members with
  | none => rfl
  | some j =>
    obtain ⟨m, hm, hkey, -⟩ := exists_of_lookup hj
    exact absurd (List.mem_map.2 ⟨m, hm, hkey⟩) h

/-- With distinct keys every member is looked up. -/
theorem lookup_eq_some_iff (h : (members.map Member.key).Nodup) :
    lookup key members = some j ↔ .mk key j ∈ members := by
  refine ⟨fun hj => ?_, fun hj => ?_⟩
  · obtain ⟨⟨_, _⟩, hm, rfl, rfl⟩ := exists_of_lookup hj
    exact hm
  · induction members with
    | nil => cases hj
    | cons m rest ih =>
      rw [List.map_cons, List.nodup_cons] at h
      rw [lookup_cons]
      rcases List.mem_cons.1 hj with rfl | hrest
      · have hnone : lookup key rest = none := lookup_eq_none h.1
        rw [hnone]
        simp [Member.key, Member.value]
      · rw [ih h.2 hrest]
        rfl

/-- With distinct keys the order of the members does not matter. -/
theorem lookup_perm (hperm : others.Perm members) (h : (members.map Member.key).Nodup) :
    lookup key others = lookup key members := by
  refine Option.ext fun j => ?_
  rw [lookup_eq_some_iff h, lookup_eq_some_iff ((hperm.map Member.key).nodup_iff.2 h), hperm.mem_iff]

/-- An array is nested deeper than its items. -/
theorem depth_le_depthOfItems {items : List Json} (h : j ∈ items) : j.depth ≤ depthOfItems items := by
  induction items with
  | nil => cases h
  | cons i rest ih =>
    rw [depthOfItems]
    rcases List.mem_cons.1 h with rfl | hrest
    · exact Nat.le_max_left _ _
    · exact Nat.le_trans (ih hrest) (Nat.le_max_right _ _)

/-- An object is nested deeper than what is looked up in it. -/
theorem depth_lookup_le (h : lookup key members = some j) : j.depth ≤ depthOfMembers members := by
  obtain ⟨m, hm, -, rfl⟩ := exists_of_lookup h
  clear h
  induction members with
  | nil => cases hm
  | cons m' rest ih =>
    obtain ⟨key', value⟩ := m'
    rw [depthOfMembers]
    rcases List.mem_cons.1 hm with rfl | hrest
    · exact Nat.le_max_left _ _
    · exact Nat.le_trans (ih hrest) (Nat.le_max_right _ _)

end Json

namespace Attributes

/-- Attributes are ordered by key, each key once. -/
def IsOrdered (attributes : Attributes) : Prop := attributes.Pairwise fun a b => Text.blt a.1 b.1 = true

instance (attributes : Attributes) : Decidable attributes.IsOrdered :=
  inferInstanceAs (Decidable (attributes.Pairwise fun a b => Text.blt a.1 b.1 = true))

variable {key value : Text} {attributes entered others : Attributes}

/-- A new attribute is entered besides those that are there. -/
theorem insert_perm (h : key ∉ attributes.map Prod.fst) :
    (insert key value attributes).Perm ((key, value) :: attributes) := by
  induction attributes with
  | nil => exact .refl _
  | cons a rest ih =>
    obtain ⟨k, v⟩ := a
    rw [List.map_cons, List.mem_cons, not_or] at h
    rw [insert, if_neg fun heq => h.1 (eq_of_beq heq).symm]
    split
    · exact .refl _
    · exact ((ih h.2).cons _).trans (.swap _ _ _)

/-- A new attribute is entered where the order of keys has it. -/
theorem IsOrdered.insert (h : attributes.IsOrdered) (hkey : key ∉ attributes.map Prod.fst) :
    (Attributes.insert key value attributes).IsOrdered := by
  induction attributes with
  | nil => exact List.pairwise_singleton _ _
  | cons a rest ih =>
    obtain ⟨k, v⟩ := a
    rw [IsOrdered, List.pairwise_cons] at h
    rw [List.map_cons, List.mem_cons, not_or] at hkey
    rw [Attributes.insert, if_neg fun heq => hkey.1 (eq_of_beq heq).symm]
    split
    · rename_i hlt
      refine List.pairwise_cons.2 ⟨?_, List.pairwise_cons.2 h⟩
      exact List.forall_mem_cons.2 ⟨hlt, fun b hb => Text.blt_trans hlt (h.1 b hb)⟩
    · rename_i hlt
      refine List.pairwise_cons.2 ⟨fun b hb => ?_, ih h.2 hkey.2⟩
      rcases List.mem_cons.1 ((insert_perm hkey.2).mem_iff.1 hb) with rfl | hrest
      · exact Text.blt_of_ne hkey.1 hlt
      · exact h.1 b hrest

/-- Attributes that are ordered have distinct keys. -/
theorem IsOrdered.nodup (h : attributes.IsOrdered) : (attributes.map Prod.fst).Nodup := by
  refine List.pairwise_map.2 (h.imp fun hlt heq => ?_)
  rw [heq] at hlt
  exact Text.not_blt_self _ hlt

/-- Attributes are determined by what they are, since they are ordered. -/
theorem IsOrdered.eq_of_perm (h : attributes.IsOrdered) (h' : others.IsOrdered) (hperm : attributes.Perm others) :
    attributes = others := by
  refine hperm.eq_of_pairwise (fun a b _ _ hab hba => ?_) h h'
  exact absurd (Text.blt_trans hab hba) (Text.not_blt_self _)

/-- Attributes that are entered one after the other, in whatever order, end up in the order of their keys. -/
theorem foldl_insert (h : attributes.IsOrdered) (hperm : others.Perm attributes) :
    others.foldl (fun acc a => insert a.1 a.2 acc) [] = attributes := by
  have hfold : ∀ entered : Attributes, entered.IsOrdered → ((entered ++ others).map Prod.fst).Nodup →
      (others.foldl (fun acc a => insert a.1 a.2 acc) entered).IsOrdered ∧
        (others.foldl (fun acc a => insert a.1 a.2 acc) entered).Perm (entered ++ others) := by
    clear hperm
    induction others with
    | nil =>
      intro entered hentered _
      rw [List.append_nil]
      exact ⟨hentered, .refl _⟩
    | cons a rest ih =>
      intro entered hentered hnodup
      have hkey : a.1 ∉ entered.map Prod.fst := by
        rw [List.map_append, List.map_cons, List.nodup_append] at hnodup
        exact fun hmem => hnodup.2.2 _ hmem _ List.mem_cons_self rfl
      have hmoved : (insert a.1 a.2 entered ++ rest).Perm (entered ++ a :: rest) :=
        ((insert_perm hkey).append_right rest).trans List.perm_middle.symm
      obtain ⟨hordered, hall⟩ := ih _ (hentered.insert hkey) ((hmoved.map Prod.fst).nodup_iff.2 hnodup)
      exact ⟨hordered, hall.trans hmoved⟩
  obtain ⟨hordered, hall⟩ := hfold [] List.Pairwise.nil ((hperm.map Prod.fst).nodup_iff.2 h.nodup)
  exact hordered.eq_of_perm h (hall.trans hperm)

end Attributes

namespace Source

/-- The members of an object have distinct keys, and no others than given ones. -/
structure HasKeys (keys : List Text) (members : List Member) : Prop where
  /-- No key stands twice. -/
  nodup : (members.map Member.key).Nodup
  /-- Each key is among the given ones. -/
  mem : ∀ m ∈ members, m.key ∈ keys

/-- There is no value, or it is `null`. -/
def IsMissing (o : Option Json) : Prop := ∀ j ∈ o, j.isNull = true

/-- The items of an array, if there is one. -/
def itemsOf? : Option Json → Option (List Json)
  | some (.array _ items) => some items
  | _ => none

/-- A value is missing or an array. -/
def IsList (o : Option Json) : Prop := IsMissing o ∨ ∃ src items, o = some (.array src items)

theorem isList_none : IsList none := Or.inl fun _ hj => by cases hj

variable {key : Text} {node members : List Member} {j : Json} {o : Option Json}

/-- What is missing has no items. -/
theorem IsMissing.itemsOf? (h : IsMissing o) : itemsOf? o = none := by
  cases o with
  | none => rfl
  | some j =>
    cases j with
    | array => exact absurd (h _ rfl) Bool.false_ne_true
    | _ => rfl

/-- What is missing is absent or `null`. -/
theorem IsMissing.cases (h : IsMissing o) : o = none ∨ o = some .null := by
  cases o with
  | none => exact Or.inl rfl
  | some j =>
    cases j with
    | null => exact Or.inr rfl
    | _ => exact absurd (h _ rfl) Bool.false_ne_true

/-- A missing field is absent. -/
theorem field?_of_isMissing (h : IsMissing (Json.lookup key node)) : field? key node = none := by
  rw [field?, Option.filter_eq_none_iff]
  intro j hj
  simp [h j hj]

/-- A field that is there is what is looked up. -/
theorem field?_of_lookup (h : Json.lookup key node = some j) (hj : j.isNull = false) :
    field? key node = some j := by
  rw [field?, h]
  simp [Option.filter, hj]

/-- A field that is missing or an array holds its items. -/
theorem listField_of_isList (h : IsList (Json.lookup key node)) :
    listField key node = .ok ((itemsOf? (Json.lookup key node)).getD []) := by
  rw [listField]
  rcases h with hmissing | ⟨src, items, hj⟩
  · rw [field?_of_isMissing hmissing, hmissing.itemsOf?]
    rfl
  · rw [field?_of_lookup hj rfl, hj]
    rfl

/-- Attributes are read whatever the order of their members. -/
theorem attributesField_eq {src : Span} {attributes : Attributes}
    (h : Json.lookup key node = some (.object src members)) (hordered : attributes.IsOrdered)
    (hperm : members.Perm (attributes.map fun a => .mk a.1 (.string a.2))) :
    attributesField key node = .ok (some attributes) := by
  have hmap := congrFun (congrFun (List.eq_map_comp_perm fun a : Text × Text => Member.mk a.1 (.string a.2)) members)
    attributes
  obtain ⟨others, rfl, hothers⟩ := hmap.mpr hperm
  rw [attributesField, field?_of_lookup h rfl]
  simp only [List.foldlM_map, Member.key, Member.value]
  have hfold := Attributes.foldl_insert hordered hothers
  have hpure : others.foldlM (fun acc a => (Except.ok (Attributes.insert a.1 a.2 acc) : Except SourceError _)) [] =
      .ok attributes := by
    rw [← hfold]
    exact List.foldlM_pure
  rw [hpure]
  rfl

/-- The keys that are matched without regard to case are their own folded forms. -/
theorem foldKey_eq_self :
    ∀ k ∈ [("type" : Text), "location", "conditions", "otherwise", "test", "body", "line", "col"],
      foldKey k = k := by
  decide

theorem asUInt32?_ofNat {n : Nat} (h : n < 0x100000000) : asUInt32? (.number (Text.ofNat n)) = some n := by
  rw [asUInt32?, Numeral.readDigits_ofNat]
  exact if_pos h

/-- The members of a position. -/
def positionOf (line col : Nat) : List Member :=
  [.mk "line" (.number (Text.ofNat line)), .mk "col" (.number (Text.ofNat col))]

/-- A position is read whatever the order of its members. -/
theorem locationOf_eq {src : Span} {line col : Nat} (origin : Location)
    (h : Json.lookup "location" node = some (.object src members)) (hperm : members.Perm (positionOf line col))
    (hline : line < 0x100000000) (hcol : col < 0x100000000) :
    locationOf origin node = .ok { origin with line := line, col := col } := by
  have hreadLine : ∀ site : Site, readSiteMember site (.mk "line" (.number (Text.ofNat line))) =
      .ok { site with line := line } := by
    intro site
    have hkey : foldKey "line" = "line" := foldKey_eq_self _ (by decide)
    simp [readSiteMember, Member.key, Member.value, Json.isNull, hkey, asUInt32?_ofNat hline]
  have hreadCol : ∀ site : Site, readSiteMember site (.mk "col" (.number (Text.ofNat col))) =
      .ok { site with col := col } := by
    intro site
    have hkey : foldKey "col" = "col" := foldKey_eq_self _ (by decide)
    have hne : (("col" : Text) == "line") = false := by decide
    simp [readSiteMember, Member.key, Member.value, Json.isNull, hkey, hne, asUInt32?_ofNat hcol]
  have hsite : members.foldlM readSiteMember Site.unknown = .ok ⟨line, col, Text.empty⟩ := by
    rcases List.perm_pair.1 hperm with rfl | rfl
    · simp only [List.foldlM_cons, hreadLine, hreadCol]
      rfl
    · simp only [List.foldlM_cons, hreadLine, hreadCol]
      rfl
  have hpath : (if origin.path.isEmpty then Text.empty else origin.path) = origin.path := by
    split
    · rename_i hempty
      exact congrArg Text.mk (List.isEmpty_iff.1 hempty).symm
    · rfl
  rw [locationOf, field?_of_lookup h rfl]
  simp only [hsite, bind, Except.bind, pure, Except.pure, hpath]

variable {keys : List Text} {pre : List Member} {m : Member}

/-- The last member of an object has a key that the others do not have. -/
theorem hasKeys_concat :
    HasKeys keys (pre ++ [m]) ↔ HasKeys keys pre ∧ m.key ∈ keys ∧ m.key ∉ pre.map Member.key := by
  constructor
  · rintro ⟨hnodup, hmem⟩
    rw [List.forall_mem_append, List.forall_mem_singleton] at hmem
    rw [List.map_append, List.map_singleton, List.nodup_append] at hnodup
    refine ⟨⟨hnodup.1, hmem.1⟩, hmem.2, fun hkey => ?_⟩
    exact hnodup.2.2 _ hkey _ (List.mem_singleton_self _) rfl
  · rintro ⟨⟨hnodup, hmem⟩, hkey, hnew⟩
    refine ⟨?_, ?_⟩
    · rw [List.map_append, List.map_singleton, List.nodup_append]
      refine ⟨hnodup, List.nodup_singleton _, fun k hk k' hk' heq => hnew ?_⟩
      rwa [← List.mem_singleton.1 hk', ← heq]
    · rw [List.forall_mem_append, List.forall_mem_singleton]
      exact ⟨hmem, hkey⟩

/-- An arm is what is looked up among its members. -/
theorem readArm_eq {src : Span} (hkeys : HasKeys ["test", "body"] members)
    (hbody : IsList (Json.lookup "body" members)) :
    readArm ⟨none, []⟩ (.object src members) =
      .ok ⟨Json.lookup "test" members, (itemsOf? (Json.lookup "body" members)).getD []⟩ := by
  have htestKey : foldKey "test" = "test" := foldKey_eq_self _ (by decide)
  have hbodyKey : foldKey "body" = "body" := foldKey_eq_self _ (by decide)
  have hne : (("body" : Text) == "test") = false := by decide
  have hne' : (("test" : Text) == "body") = false := by decide
  rw [readArm]
  induction members using List.reverseRecOn with
  | nil => rfl
  | append_singleton pre m ih =>
    obtain ⟨hpre, hkey, hnew⟩ := hasKeys_concat.1 hkeys
    obtain ⟨key, value⟩ := m
    rw [List.foldlM_append]
    simp only [List.mem_cons, List.not_mem_nil, or_false, Member.key] at hkey
    rcases hkey with rfl | rfl
    · simp only [Json.lookup_concat, Member.key, Member.value, hne', beq_self_eq_true, if_true,
        Bool.false_eq_true, if_false] at hbody ⊢
      rw [ih hpre hbody]
      simp only [List.foldlM_cons, List.foldlM_nil, bind, Except.bind, pure, Except.pure, readArmMember,
        Member.key, Member.value, htestKey, beq_self_eq_true, if_true]
    · rw [Json.lookup_concat] at hbody
      simp only [Member.key, Member.value, beq_self_eq_true, if_true] at hbody
      have hnone : Json.lookup "body" pre = none := Json.lookup_eq_none hnew
      rw [ih hpre (hnone ▸ isList_none)]
      simp only [Json.lookup_concat, Member.key, Member.value, hne, beq_self_eq_true, if_true,
        Bool.false_eq_true, if_false, List.foldlM_cons, List.foldlM_nil, bind, Except.bind, pure,
        Except.pure, readArmMember, hbodyKey]
      rcases hbody with hmissing | ⟨src', items, hitems⟩
      · rcases hmissing.cases with hnone | hnull
        · cases hnone
        · cases hnull
          rfl
      · cases hitems
        rfl

/-- Arms that are read afresh are read one by one. -/
theorem readArms_nil (items : List Json) : readArms [] items = items.mapM (readArm ⟨none, []⟩) := by
  induction items with
  | nil => rfl
  | cons j rest ih => simp only [readArms, List.mapM_cons, ih]

/-- The members of a node with distinct keys are only brought into order. -/
theorem orderedMembers_perm (h : (node.map Member.key).Nodup) : (orderedMembers node).Perm node := by
  have hkeep : node.foldr (fun m (acc : List Member) =>
      if acc.any (·.key == m.key) then acc else m :: acc) [] = node := by
    induction node with
    | nil => rfl
    | cons m rest ih =>
      rw [List.map_cons, List.nodup_cons] at h
      have hany : ¬ (rest.any (·.key == m.key)) = true := by
        rw [List.any_eq_true]
        rintro ⟨m', hm', heq⟩
        exact h.1 (List.mem_map.2 ⟨m', hm', eq_of_beq heq⟩)
      rw [List.foldr_cons, ih h.2, if_neg hany]
  rw [orderedMembers, hkeep]
  exact List.mergeSort_perm _ _

/-- The members of an IF are read as what is looked up among them, whatever their order. -/
theorem foldlM_readIfMember {arms : List ArmNode}
    (hkeys : HasKeys ["type", "location", "conditions", "otherwise"] members)
    (hconditions : IsList (Json.lookup "conditions" members))
    (hotherwise : IsList (Json.lookup "otherwise" members))
    (harms : ((itemsOf? (Json.lookup "conditions" members)).getD []).mapM (readArm ⟨none, []⟩) = .ok arms) :
    members.foldlM readIfMember ⟨[], 0, none⟩ =
      .ok ⟨arms, arms.length, itemsOf? (Json.lookup "otherwise" members)⟩ := by
  have hne : ∀ k ∈ [("type" : Text), "location"], (k == "conditions") = false ∧ (k == "otherwise") = false := by
    decide
  have hcond : (("conditions" : Text) == "otherwise") = false := by decide
  have helse : (("otherwise" : Text) == "conditions") = false := by decide
  have hkey1 : foldKey "conditions" = "conditions" := foldKey_eq_self _ (by decide)
  have hkey2 : foldKey "otherwise" = "otherwise" := foldKey_eq_self _ (by decide)
  induction members using List.reverseRecOn generalizing arms with
  | nil =>
    cases harms
    rfl
  | append_singleton pre m ih =>
    obtain ⟨hpre, hkey, hnew⟩ := hasKeys_concat.1 hkeys
    obtain ⟨key, value⟩ := m
    have hother : key ∈ [("type" : Text), "location"] ∨ key = "conditions" ∨ key = "otherwise" := by
      simpa [Member.key, or_assoc] using hkey
    rw [List.foldlM_append]
    rcases hother with hother | rfl | rfl
    · obtain ⟨hne1, hne2⟩ := hne key hother
      have hfold : foldKey key = key := by
        refine foldKey_eq_self _ ?_
        simp only [List.mem_cons, List.not_mem_nil, or_false] at hother ⊢
        tauto
      simp only [Json.lookup_concat, Member.key, hne1, hne2, Bool.false_eq_true, if_false]
        at hconditions hotherwise harms ⊢
      rw [ih hpre hconditions hotherwise harms]
      simp only [List.foldlM_cons, List.foldlM_nil, bind, Except.bind, pure, Except.pure, readIfMember,
        Member.key, hfold, hne1, hne2, Bool.false_eq_true, if_false]
    · -- no arms were read before
      simp only [Json.lookup_concat, Member.key, Member.value, hcond, beq_self_eq_true, if_true,
        Bool.false_eq_true, if_false] at hconditions hotherwise harms ⊢
      have hnone : Json.lookup "conditions" pre = none := Json.lookup_eq_none hnew
      have hnoArms : ((itemsOf? (Json.lookup "conditions" pre)).getD []).mapM (readArm ⟨none, []⟩) = .ok [] := by
        rw [hnone]
        rfl
      rw [ih hpre (hnone ▸ isList_none) hotherwise hnoArms]
      simp only [List.foldlM_cons, List.foldlM_nil, bind, Except.bind, pure, Except.pure, readIfMember,
        Member.key, Member.value, hkey1, beq_self_eq_true, if_true]
      rcases hconditions with hmissing | ⟨src, items, hitems⟩
      · rcases hmissing.cases with hnone | hnull
        · cases hnone
        · cases hnull
          cases harms
          rfl
      · cases hitems
        have hlength := (Except.mapM_eq_ok_iff.1 harms).length_eq
        rw [itemsOf?, Option.getD_some] at harms hlength
        cases items with
        | nil =>
          cases harms
          rfl
        | cons j rest => simp only [readArms_nil, harms, hlength]
    · simp only [Json.lookup_concat, Member.key, Member.value, helse, beq_self_eq_true, if_true,
        Bool.false_eq_true, if_false] at hconditions hotherwise harms ⊢
      have hnone : Json.lookup "otherwise" pre = none := Json.lookup_eq_none hnew
      rw [ih hpre hconditions (hnone ▸ isList_none) harms]
      simp only [List.foldlM_cons, List.foldlM_nil, bind, Except.bind, pure, Except.pure, readIfMember,
        Member.key, Member.value, hkey2, helse, beq_self_eq_true, if_true, Bool.false_eq_true, if_false]
      rcases hotherwise with hmissing | ⟨src, items, hitems⟩
      · rcases hmissing.cases with hnone | hnull
        · cases hnone
        · cases hnull
          rfl
      · cases hitems
        rfl

/-- An IF is what is looked up among its members. -/
theorem readIf_eq {arms : List ArmNode} (hkeys : HasKeys ["type", "location", "conditions", "otherwise"] node)
    (hconditions : IsList (Json.lookup "conditions" node)) (hotherwise : IsList (Json.lookup "otherwise" node))
    (harms : ((itemsOf? (Json.lookup "conditions" node)).getD []).mapM (readArm ⟨none, []⟩) = .ok arms) :
    readIf node = .ok ⟨arms, arms.length, itemsOf? (Json.lookup "otherwise" node)⟩ := by
  have hperm := orderedMembers_perm hkeys.nodup
  have hordered : HasKeys ["type", "location", "conditions", "otherwise"] (orderedMembers node) :=
    ⟨(hperm.map Member.key).nodup_iff.2 hkeys.nodup, fun m hm => hkeys.mem m (hperm.mem_iff.1 hm)⟩
  have hlookup : ∀ key, Json.lookup key (orderedMembers node) = Json.lookup key node :=
    fun key => Json.lookup_perm hperm hkeys.nodup
  rw [← hlookup] at hconditions hotherwise harms
  rw [readIf, foldlM_readIfMember hordered hconditions hotherwise harms, hlookup]

end Source

end MacroAsm
