import MacroAsm.Proofs.Assembly.Ending
import MacroAsm.Proofs.Assembly.Reordering

/-!
# What the turns of a loop write

The turns of a DUP over data may be assembled over what names stand for at the DUP, what waits in them being evaluated
again at the end of the block, or over what names stand for at the end. A solution of the definitions behind the DUP
tells what is written either way (`Entry.writes_of_writtenTimes`). So two blocks that differ in the loop write alike
if their loops do (`Entry.WritesAround.map_erase_eq`).
-/

namespace MacroAsm

/-- Whether a statement is data with a single element, in which no name of the block is built. -/
def Token.isDatum : Token → Bool
  | .data _ _ [e] => e.isPortable true
  | _ => false

/-- A single element makes a data statement. -/
theorem Token.isData_of_isDatum {t : Token} (h : t.isDatum = true) : t.isData = true := by
  cases t with
  | data => rfl
  | _ => cases h

namespace Encode

/-- A single element is encoded if it is known, and stays in place if it is not. -/
theorem products_data_singleton {kind : DataKind} {x : Expr} {ts : List Token} (h : data kind [x] = .ok ts) :
    (x.isConcrete = true ∧ ∀ t ∈ Token.products ts, t.isData = false) ∨
      x.isConcrete = false ∧ Token.products ts = [.data x.loc kind [x]] := by
  obtain ⟨ps, hps, hproducts⟩ := exists_pieces_of_data h
  rw [hproducts]
  cases hx : x.isConcrete with
  | true =>
    refine Or.inl ⟨rfl, fun t ht => ?_⟩
    rw [dataPieces, hx, if_pos rfl] at hps
    cases hbytes : elementBytes kind x with
    | error c =>
      rw [hbytes] at hps
      cases hps
    | ok bytes =>
      rw [hbytes] at hps
      cases hps
      rcases mem_tokensFrom ht with ⟨loc, written, rfl⟩ | hmem
      · rfl
      · simp [pendingData] at hmem
  | false =>
    refine Or.inr ⟨rfl, ?_⟩
    rw [dataPieces, hx, if_neg Bool.false_ne_true] at hps
    cases hps
    rfl

end Encode

namespace Entry

open Eval (Leaves Solves Following outcome Agrees PortableNames)

variable {u : Surroundings} {radix : Nat} {g : Following} {b b' : Text → Binding}

section Parts

variable {α β : Type} {R : α → β → Prop}

/-- What corresponds to a single element is a single element. -/
theorem exists_of_forall₂_singleton {x : α} {zs : List β} (h : List.Forall₂ R [x] zs) : ∃ z, zs = [z] ∧ R x z := by
  obtain ⟨z, zs', hz, hnil, rfl⟩ := List.forall₂_cons_left_iff.1 h
  rw [List.forall₂_nil_left_iff.1 hnil]
  exact ⟨z, rfl, hz⟩

/-- What corresponds to two lists in a row is two lists in a row. -/
theorem exists_of_forall₂_append {xs ys : List α} {zs : List β} (h : List.Forall₂ R (xs ++ ys) zs) :
    ∃ zs₁ zs₂, zs = zs₁ ++ zs₂ ∧ List.Forall₂ R xs zs₁ ∧ List.Forall₂ R ys zs₂ := by
  induction xs generalizing zs with
  | nil => exact ⟨[], zs, rfl, .nil, h⟩
  | cons x xs ih =>
    cases h with
    | cons hfirst hrest =>
      obtain ⟨zs₁, zs₂, rfl, h₁, h₂⟩ := ih hrest
      exact ⟨_ :: zs₁, zs₂, rfl, .cons hfirst h₁, h₂⟩

end Parts

/-- What is left of an expression, whether it waits or not. -/
structure Carried (u : Surroundings) (radix : Nat) (g : Following) (e x : Expr) : Prop where
  /-- It leads to what the expression does. -/
  agrees : Agrees True Expr.erase (outcome u radix g e.strip true) (outcome u radix g x true)
  /-- Nothing in it is ignored. -/
  isStripped : x.IsStripped
  /-- It is what the expression leads to, if it waits for nothing. -/
  means : x.isResolved = true → Means u radix g e x

section Carried

variable {e v x : Expr} {dom : Finset Text} (hargs : u.args = [])
  (hdom : ∀ name, (b name).value.isSome → name ∈ dom) (hg : Solves u radix g b)
include hargs hdom hg

/-- What evaluation leaves of an expression is carried. -/
theorem carried_of_leaves (h : Leaves u radix b e true x) : Carried u radix g e x := by
  obtain ⟨hagrees, hstripped⟩ := Solves.leaves hargs hg h
  refine ⟨hagrees, hstripped, fun hx => ?_⟩
  obtain ⟨r, herase, hr⟩ := Leaves.settled hargs hdom h hx
  obtain ⟨a, ha, har⟩ := hagrees.back trivial r (hr g true)
  exact ⟨a, ha, herase.trans har.symm⟩

/-- What evaluation leaves of what is carried is carried. -/
theorem Carried.leaves (hv : Carried u radix g e v) (h : Leaves u radix b v true x) : Carried u radix g e x := by
  have hx := carried_of_leaves hargs hdom hg h
  have hagrees := hx.agrees
  rw [hv.isStripped] at hagrees
  refine ⟨hv.agrees.trans hagrees, hx.isStripped, fun hresolved => ?_⟩
  obtain ⟨a, ha, hxa⟩ := hx.means hresolved
  rw [hv.isStripped] at ha
  obtain ⟨a', ha', haa⟩ := hv.agrees.back trivial a ha
  exact ⟨a', ha', hxa.trans haa.symm⟩

omit hargs hdom in
/-- Once the solution leaves alone what is not bound, what evaluation leaves is what the expression leads to. -/
theorem Carried.means_of_leaves (hrest : ∀ name, (b name).isSet = false → ∀ loc,
    g loc name = some (.identifier loc name)) (hv : Carried u radix g e v) (h : Leaves u radix b v true x) :
    Means u radix g e x := by
  obtain ⟨a, ha, hxa⟩ := hg.total hrest h
  rw [hv.isStripped] at ha
  obtain ⟨a', ha', haa⟩ := hv.agrees.back trivial a ha
  exact ⟨a', ha', hxa.trans haa.symm⟩

/-- A single element that was entered and completed is carried. Once the solution leaves alone what is not bound,
it is what the element leads to. -/
theorem exists_carried {loc : Location} {kind : DataKind} {pending : Bool} {ts : List Token}
    (hvalue : Leaves u radix b e true v) (hresolved : pending = false → v.isResolved = true)
    (h : Completes u radix b ⟨.data loc kind [v], pending⟩ ts) :
    ∃ x, Encode.data kind [x] = .ok ts ∧ Carried u radix g e x ∧
      ((∀ name, (b name).isSet = false → ∀ loc, g loc name = some (.identifier loc name)) →
        Means u radix g e x) := by
  have hv := carried_of_leaves hargs hdom hg hvalue
  cases h with
  | pending hvalues hencoded =>
    obtain ⟨x, rfl, hx⟩ := exists_of_forall₂_singleton hvalues
    exact ⟨x, hencoded, hv.leaves hargs hdom hg hx, fun hrest => hv.means_of_leaves hg hrest hx⟩
  | settled hencoded => exact ⟨v, hencoded, hv, fun _ => hv.means (hresolved rfl)⟩

end Carried

section Turn

variable {mark : Token → Item} (hmark : ∀ t, (mark t).token = t) (hg : Solves u radix g b)
  (hrest : ∀ name, (b name).isSet = false → ∀ loc, g loc name = some (.identifier loc name))
include hmark hg hrest

omit hg hrest in
/-- What is no data is written as it is. -/
theorem flatten_of_finishes {ts : List Token} {tss : List (List Token)} (hts : ∀ t ∈ ts, t.isData = false)
    (h : List.Forall₂ (Finishes u radix b) (ts.map mark) tss) : tss.flatten = ts := by
  induction ts generalizing tss with
  | nil =>
    cases h
    rfl
  | cons t ts ih =>
    rw [List.forall_mem_cons] at hts
    rw [List.map_cons] at h
    obtain ⟨ts', tss', hfirst, hrest, rfl⟩ := List.forall₂_cons_left_iff.1 h
    have ht := hmark t
    generalize mark t = item at hfirst ht
    obtain ⟨token, pending⟩ := item
    cases ht
    rw [List.flatten_cons, hfirst.eq_singleton hts.1, ih hts.2 hrest, List.singleton_append]

/-- A single element that is carried is written as what it leads to, whether it is evaluated once more or not. -/
theorem writes_of_carried (loc : Location) {kind : DataKind} {e x : Expr} {ts : List Token}
    {tss : List (List Token)} (hencoded : Encode.data kind [x] = .ok ts) (hcarried : Carried u radix g e x)
    (hsettled : (mark (.data x.loc kind [x])).pending = false → Means u radix g e x)
    (h : List.Forall₂ (Finishes u radix b) ((Token.products ts).map mark) tss) :
    ∃ ts', Writes u radix g (.data loc kind [e]) ts' ∧ Token.products tss.flatten = Token.products ts' := by
  rcases Encode.products_data_singleton hencoded with ⟨hx, hts⟩ | ⟨-, hts⟩
  · refine ⟨ts, ⟨loc, kind, [e], [x], rfl, .cons (hcarried.means ?_) .nil, hencoded⟩, ?_⟩
    · cases x with
      | number | string | numeral => rfl
      | _ => cases hx
    · rw [flatten_of_finishes hmark hts h, Token.products, Token.products, List.filter_filter]
      simp only [Bool.and_self]
  · rw [hts, List.map_singleton] at h
    obtain ⟨ts', rfl, hfirst⟩ := exists_of_forall₂_singleton h
    have ht := hmark (.data x.loc kind [x])
    generalize mark (.data x.loc kind [x]) = item at hfirst hsettled ht
    obtain ⟨token, pending⟩ := item
    cases ht
    have hcarries : Carries u radix g (.data x.loc kind [e]) ⟨.data x.loc kind [x], pending⟩ := by
      cases pending with
      | true => exact .pending (.cons ⟨hcarried.agrees, hcarried.isStripped⟩ .nil)
      | false => exact .settled (.cons (hsettled rfl) .nil)
    obtain ⟨l, kind', es, rs, heq, hmeans, hdata⟩ := (hfirst.completes rfl).writes hg hrest hcarries
    cases heq
    exact ⟨ts', ⟨loc, kind, [e], rs, rfl, hmeans, hdata⟩, by rw [List.flatten_singleton]⟩

/-- A block of single elements writes what the elements lead to, if what it leaves is evaluated once more as long as
it waits, or if the solution leaves alone what is not bound where the block is assembled. -/
theorem writes_of_entered (hargs : u.args = []) {bt bt' : Text → Binding} {dom : Finset Text}
    (hdom : ∀ name, (bt name).value.isSome → name ∈ dom) (hgt : Solves u radix g bt) (hnames : PortableNames bt)
    (hsettled : (∀ t, (mark t).pending = false → t.isResolved = true) ∨
      ∀ name, (bt name).isSet = false → ∀ loc, g loc name = some (.identifier loc name))
    {unit : Text} {body : List Token} {entered : List Item} {tss₁ tss : List (List Token)}
    (hbody : ∀ t ∈ body, t.isDatum = true) (henters : EntersAll ⟨unit, u.args⟩ radix bt body entered bt')
    (hcompletes : List.Forall₂ (Completes ⟨unit, u.args⟩ radix bt) entered tss₁)
    (h : List.Forall₂ (Finishes u radix b) ((Token.products tss₁.flatten).map mark) tss) :
    ∃ tss', List.Forall₂ (Writes u radix g) body tss' ∧
      Token.products tss.flatten = Token.products tss'.flatten := by
  have hportable : ∀ a ∈ u.args, a.isPortable false = true := by simp [hargs]
  induction henters generalizing tss₁ tss with
  | nil =>
    cases hcompletes
    cases h
    exact ⟨[], .nil, rfl⟩
  | @cons bt b₁ b₂ t rest items items' hfirst _ ih =>
    rw [List.forall_mem_cons] at hbody
    cases hfirst with
    | equate => cases hbody.1
    | @data loc kind es vs pending hvalues hresolved =>
      obtain ⟨e, rfl, he⟩ : ∃ e, es = [e] ∧ e.isPortable true = true := by
        have hdatum := hbody.1
        rw [Token.isDatum.eq_def] at hdatum
        split at hdatum
        · rename_i heq
          cases heq
          exact ⟨_, rfl, hdatum⟩
        · cases hdatum
      obtain ⟨v, rfl, hv⟩ := exists_of_forall₂_singleton hvalues
      obtain ⟨ts₁, tss₁, hfirst, hmore, rfl⟩ := List.forall₂_cons_left_iff.1 hcompletes
      -- the name of the nested block is in none of it
      have hvalue : Leaves u radix bt e true v := Leaves.elsewhere (u := ⟨unit, u.args⟩) rfl hnames he hv
      have hcompleted : Completes u radix bt ⟨.data loc kind [v], pending⟩ ts₁ := by
        have hleft : v.isPortable true = true := Expr.isPortable_of_false true v (hvalue.isPortable hportable)
        cases hfirst with
        | pending hagain hencoded =>
          obtain ⟨x, rfl, hx⟩ := exists_of_forall₂_singleton hagain
          exact .pending (.cons (Leaves.elsewhere (u := ⟨unit, u.args⟩) rfl hnames hleft hx) .nil) hencoded
        | settled hencoded => exact .settled hencoded
      obtain ⟨x, hencoded, hcarried, hmeans⟩ := exists_carried hargs hdom hgt hvalue
        (fun hp => hresolved hp v (List.mem_singleton.2 rfl)) hcompleted
      rw [List.flatten_cons, Token.products_append, List.map_append] at h
      obtain ⟨tss₂, tss₃, rfl, hdatum, hothers⟩ := exists_of_forall₂_append h
      have hlast : (mark (.data x.loc kind [x])).pending = false → Means u radix g e x := by
        intro hp
        rcases hsettled with hsettled | hsettled
        · refine hcarried.means ?_
          simpa [Token.isResolved, Expr.allResolved] using hsettled (.data x.loc kind [x]) hp
        · exact hmeans hsettled
      obtain ⟨ts', hwrites, hproducts⟩ := writes_of_carried hmark hg hrest loc hencoded hcarried hlast hdatum
      obtain ⟨tss', hall, hproducts'⟩ := ih hdom hgt hnames hsettled hbody.2 hmore hothers
      refine ⟨ts' :: tss', .cons hwrites hall, ?_⟩
      rw [List.flatten_append, Token.products_append, hproducts, hproducts', List.flatten_cons,
        Token.products_append]

/-- The turns of a loop over single elements write what the elements lead to, as often as there are turns. -/
theorem writes_of_writtenTimes (hargs : u.args = []) {bt : Text → Binding} {dom : Finset Text}
    (hdom : ∀ name, (bt name).value.isSome → name ∈ dom) (hgt : Solves u radix g bt) (hnames : PortableNames bt)
    (hradix : (bt Scope.radixName).radix = radix)
    (hsettled : (∀ t, (mark t).pending = false → t.isResolved = true) ∨
      ∀ name, (bt name).isSet = false → ∀ loc, g loc name = some (.identifier loc name))
    {remark : Item → Item} (hspliced : ∀ t, remark (.spliced t) = mark t) {body : List Token}
    (hbody : ∀ t ∈ body, t.isDatum = true) {n : Nat} {items : List Item} {tss : List (List Token)}
    (hwritten : Replay.WrittenTimes u.args bt body n items)
    (h : List.Forall₂ (Finishes u radix b) ((items.filter fun i => !i.token.isMessage).map remark) tss) :
    ∃ tss', List.Forall₂ (Writes u radix g) (List.replicate n body).flatten tss' ∧
      Token.products tss.flatten = Token.products tss'.flatten := by
  obtain ⟨turns, rfl, rfl, hall⟩ := hwritten
  induction turns generalizing tss with
  | nil =>
    cases h
    exact ⟨[], .nil, rfl⟩
  | cons items turns ih =>
    rw [List.forall_mem_cons] at hall
    obtain ⟨unit, entered, tss₀, reports, henters, hcompletes, rfl, hreports⟩ := hall.1
    rw [hradix] at henters hcompletes
    rw [List.flatten_cons, List.filter_append, List.map_append] at h
    obtain ⟨tss₁, tss₂, rfl, hturn, hturns⟩ := exists_of_forall₂_append h
    have hkept : ((Token.products tss₀.flatten).map Item.spliced).map remark =
        (Token.products tss₀.flatten).map mark := by
      rw [List.map_map]
      exact List.map_congr_left fun t _ => hspliced t
    rw [Replay.filter_written hreports, hkept] at hturn
    obtain ⟨tss', hwrites, hproducts⟩ :=
      writes_of_entered hmark hg hrest hargs hdom hgt hnames hsettled hbody henters hcompletes hturn
    obtain ⟨tss'', hwrites', hproducts'⟩ := ih hall.2 hturns
    refine ⟨tss' ++ tss'', ?_, ?_⟩
    · rw [List.length_cons, List.replicate_succ, List.flatten_cons]
      exact List.rel_append hwrites hwrites'
    · rw [List.flatten_append, List.flatten_append, Token.products_append, Token.products_append, hproducts,
        hproducts']

end Turn

section Before

variable (hg : Solves u radix g b)
  (hrest : ∀ name, (b name).isSet = false → ∀ loc, g loc name = some (.identifier loc name))
  (hg' : Solves u radix g b')
  (hrest' : ∀ name, (b' name).isSet = false → ∀ loc, g loc name = some (.identifier loc name))
include hg hrest hg' hrest'

/-- The same items are completed alike by all that one solution solves. -/
theorem map_erase_of_completes {items : List Item} {tss tss' : List (List Token)}
    (h : List.Forall₂ (Completes u radix b) items tss) (h' : List.Forall₂ (Completes u radix b') items tss') :
    (Token.products tss.flatten).map Token.erase = (Token.products tss'.flatten).map Token.erase := by
  induction h generalizing tss' with
  | nil =>
    cases h'
    rfl
  | @cons item ts items tss hfirst _ ih =>
    obtain ⟨ts', tss', hfirst', hmore, rfl⟩ := List.forall₂_cons_left_iff.1 h'
    have hsame : (Token.products ts).map Token.erase = (Token.products ts').map Token.erase := by
      cases hfirst with
      | pending hvalues hencoded =>
        cases hfirst' with
        | pending hvalues' hencoded' =>
          have hmeans := hvalues.imp fun v r hr => hg.total hrest hr
          have hmeans' := hvalues'.imp fun v r hr => hg'.total hrest' hr
          exact Encode.data_erase (map_erase_of_means hmeans hmeans') hencoded hencoded'
      | settled hencoded =>
        cases hfirst' with
        | settled hencoded' => exact Encode.data_erase rfl hencoded hencoded'
    rw [List.flatten_cons, List.flatten_cons, Token.products_append, Token.products_append, List.map_append,
      List.map_append, hsame, ih hmore]

end Before

/-- What is written for a block whose second stage left some items first and then came to a loop: the items are
completed, the loop writes what `Q` tells of the names that are bound in the end, and the definitions and data
behind it are entered and completed. -/
def WritesAround (u : Surroundings) (b : Text → Binding) (before : List Item) (after : List Token)
    (Q : (Text → Binding) → List Token → Prop) (written : List Token) : Prop :=
  ∃ (b' : Text → Binding) (dom : Finset Text) (items : List Item) (tss₁ : List (List Token)) (ts : List Token)
    (tss₂ : List (List Token)),
    (∀ name, (b' name).value.isSome → name ∈ dom) ∧
    EntersAll u (b Scope.radixName).radix b after items b' ∧
    List.Forall₂ (Completes u (b Scope.radixName).radix b') before tss₁ ∧ Q b' ts ∧
    List.Forall₂ (Completes u (b Scope.radixName).radix b') items tss₂ ∧
    Token.products written = Token.products tss₁.flatten ++ (Token.products ts ++ Token.products tss₂.flatten)

/-- What is known of the definitions behind the loop tells more about what the loop writes. -/
theorem WritesAround.imp {before : List Item} {after written : List Token}
    {Q Q' : (Text → Binding) → List Token → Prop} (h : WritesAround u b before after Q written)
    (hQ : ∀ b' items ts, EntersAll u (b Scope.radixName).radix b after items b' → Q b' ts → Q' b' ts) :
    WritesAround u b before after Q' written := by
  obtain ⟨b', dom, items, tss₁, ts, tss₂, hdom, henters, hbefore, hloop, hafter, hwritten⟩ := h
  exact ⟨b', dom, items, tss₁, ts, tss₂, hdom, henters, hbefore, hQ b' items ts henters hloop, hafter, hwritten⟩

/-- Two blocks write alike around their loops if the loops write the same by every solution of the definitions
behind them. -/
theorem WritesAround.map_erase_eq (hargs : u.args = []) {before : List Item} {after body : List Token}
    {Q Q' : (Text → Binding) → List Token → Prop} {written written' : List Token}
    (hQ : ∀ (g : Following) (b' : Text → Binding) (dom : Finset Text) (items : List Item) (ts : List Token),
      (∀ name, (b' name).value.isSome → name ∈ dom) →
      IsSolution u (b Scope.radixName).radix b after g →
      EntersAll u (b Scope.radixName).radix b after items b' → Q b' ts →
      ∃ tss, List.Forall₂ (Writes u (b Scope.radixName).radix g) body tss ∧
        Token.products ts = Token.products tss.flatten)
    (hQ' : ∀ (g : Following) (b' : Text → Binding) (dom : Finset Text) (items : List Item) (ts : List Token),
      (∀ name, (b' name).value.isSome → name ∈ dom) →
      IsSolution u (b Scope.radixName).radix b after g →
      EntersAll u (b Scope.radixName).radix b after items b' → Q' b' ts →
      ∃ tss, List.Forall₂ (Writes u (b Scope.radixName).radix g) body tss ∧
        Token.products ts = Token.products tss.flatten)
    (h : WritesAround u b before after Q written) (h' : WritesAround u b before after Q' written') :
    (Token.products written).map Token.erase = (Token.products written').map Token.erase := by
  obtain ⟨b₁, dom, items, tss₁, ts, tss₂, hdom, henters, hbefore, hloop, hafter, hwritten⟩ := h
  obtain ⟨b₂, dom', items', tss₁', ts', tss₂', hdom', henters', hbefore', hloop', hafter', hwritten'⟩ := h'
  obtain ⟨g, hg⟩ := EntersAll.exists_isSolution hargs hdom henters
  obtain ⟨hsolves, hrest⟩ := EntersAll.solved hargs hg henters
  obtain ⟨hsolves', hrest'⟩ := EntersAll.solved hargs hg henters'
  obtain ⟨tss, hwrites, hproducts⟩ := hQ g b₁ dom items ts hdom hg henters hloop
  obtain ⟨tss', hwrites', hproducts'⟩ := hQ' g b₂ dom' items' ts' hdom' hg henters' hloop'
  rw [hwritten, hwritten', List.map_append, List.map_append, List.map_append, List.map_append,
    map_erase_of_completes hsolves hrest hsolves' hrest' hbefore hbefore', hproducts, hproducts',
    map_erase_of_writes hwrites hwrites',
    map_erase_of_writes (EntersAll.writes hargs hg hdom henters hafter)
      (EntersAll.writes hargs hg hdom' henters' hafter')]

end Entry

end MacroAsm
