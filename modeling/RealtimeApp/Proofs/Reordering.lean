import Mathlib.Data.List.Forall2
import Mathlib.Data.List.Perm.Basic
import RealtimeApp.Proofs.ValueReading

/-!
# Lists in another order

Two written lists hold the same items in some order (`Reordered`, `StorageReordered`).  A list
between commas is cut into its items in one way only, as items have no commas of their own
(`Written.Commas.forall₂_of_items`), and so is storage, whose entries end with their semicolons.
So whatever is listed in one order is listed in the other, too.
-/

namespace RealtimeApp

open Written

/-! ## Lists between commas -/

/-- A run ends where the first token of the kind that it does not hold is. -/
theorem eq_of_append_stop_eq {stop : LeafKind} {run run' rest rest' : List Token} {t t' : Token}
    (hrun : ∀ t ∈ run, t.isLeaf stop = false) (hrun' : ∀ t ∈ run', t.isLeaf stop = false)
    (ht : t.isLeaf stop = true) (ht' : t'.isLeaf stop = true)
    (h : run ++ t :: rest = run' ++ t' :: rest') : run = run' ∧ rest = rest' := by
  have hstops : ∀ m ∈ (t :: rest).head?, m.isLeaf stop = true := by simpa using ht
  have hstops' : ∀ m ∈ (t' :: rest').head?, m.isLeaf stop = true := by simpa using ht'
  have hsplit := Grammar.takeWhile_stopless hrun hstops
  have hsplit' := Grammar.takeWhile_stopless hrun' hstops'
  rw [h] at hsplit
  refine ⟨hsplit.1.symm.trans hsplit'.1, ?_⟩
  exact (List.cons.inj (hsplit.2.symm.trans hsplit'.2)).2

/-- A run of tokens that is not empty and has no comma. -/
structure IsItem (run : List Token) : Prop where
  ne_nil : run ≠ []
  commaFree : ∀ t ∈ run, t.isLeaf .comma = false

/-- Two lists between commas hold the same items in some order, but for a change of each item.
Either list may have one more comma behind its last item. -/
structure Reordered (Item : List Token → List Token → Prop) (tokens others : List Token) :
    Prop where
  exists_pairs : ∃ pairs pairs' : List (List Token × List Token), pairs.Perm pairs' ∧
    (∀ pair ∈ pairs, Item pair.1 pair.2) ∧ Commas Eq (pairs.map Prod.fst) tokens ∧
    Commas Eq (pairs'.map Prod.snd) others

theorem Reordered.symm {Item Item' : List Token → List Token → Prop} {tokens others : List Token}
    (h : Reordered Item tokens others) (hItem : ∀ run other, Item run other → Item' other run) :
    Reordered Item' others tokens := by
  obtain ⟨pairs, pairs', hperm, hitems, hfirst, hsecond⟩ := h.exists_pairs
  refine ⟨pairs'.map Prod.swap, pairs.map Prod.swap, hperm.symm.map _, ?_, ?_, ?_⟩
  · intro pair hpair
    obtain ⟨other, hother, rfl⟩ := List.mem_map.1 hpair
    exact hItem _ _ (hitems other (hperm.mem_iff.2 hother))
  · simpa [Function.comp_def] using hsecond
  · simpa [Function.comp_def] using hfirst

section Commas

variable {α : Type} {Item : α → List Token → Prop}

/-- A list is cut into items in one way. -/
theorem forall₂_of_items (hItem : ∀ a run, Item a run → IsItem run) {as : List α}
    {tokens : List Token} (h : Commas Item as tokens) :
    ∀ {items : List (List Token)}, (∀ item ∈ items, IsItem item) → Commas Eq items tokens →
      List.Forall₂ Item as items := by
  -- no item has a comma, so the first comma ends the first item on both sides
  induction h with
  | nil =>
      intro items hitems hcommas
      generalize htokens : ([] : List Token) = tokens at hcommas
      cases hcommas with
      | nil => exact .nil
      | last heq =>
          subst heq
          exact absurd htokens.symm (hitems _ List.mem_cons_self).ne_nil
      | cons => simp at htokens
  | @last a run ha =>
      intro items hitems hcommas
      cases hcommas with
      | nil => exact absurd rfl (hItem a _ ha).ne_nil
      | last heq => exact heq ▸ .cons ha .nil
      | @cons item run' rest comma _ _ hcomma _ =>
          have hfree := (hItem a _ ha).commaFree comma (by simp)
          rw [hfree] at hcomma
          cases hcomma
  | @cons a run rest comma as ha hcomma _ ih =>
      intro items hitems hcommas
      generalize htokens : run ++ comma :: rest = tokens at hcommas
      cases hcommas with
      | nil => simp at htokens
      | last heq =>
          subst heq
          subst htokens
          have hfree := (hitems _ List.mem_cons_self).commaFree comma (by simp)
          rw [hfree] at hcomma
          cases hcomma
      | @cons item run' rest' comma' items heq hcomma' hrest =>
          subst heq
          obtain ⟨rfl, rfl⟩ := eq_of_append_stop_eq (hItem a _ ha).commaFree
            (hitems _ List.mem_cons_self).commaFree hcomma hcomma' htokens
          exact .cons ha (ih (fun item h => hitems item (List.mem_cons_of_mem _ h)) hrest)

theorem commas_of_forall₂ {items : List (List Token)} {tokens : List Token}
    (h : Commas Eq items tokens) :
    ∀ {as : List α}, List.Forall₂ Item as items → Commas Item as tokens := by
  induction h with
  | nil =>
      intro as has
      cases has
      exact .nil
  | last heq =>
      subst heq
      intro as has
      cases has with
      | cons ha hrest =>
          cases hrest
          exact .last ha
  | cons heq hcomma _ ih =>
      subst heq
      intro as has
      cases has with
      | cons ha hrest => exact .cons ha hcomma (ih hrest)

end Commas

/-- What goes with the elements of a list goes with them in any other order. -/
theorem exists_perm_forall₂ {α β : Type} {R : α → β → Prop} {as : List α} {bs bs' : List β}
    (h : List.Forall₂ R as bs) (hperm : bs.Perm bs') :
    ∃ as', as.Perm as' ∧ List.Forall₂ R as' bs' := by
  obtain ⟨as', hrelated, has'⟩ := List.perm_comp_forall₂ hperm.symm h.flip
  exact ⟨as', has'.symm, hrelated.flip⟩

theorem forall₂_imp_of_mem {α β : Type} {R S : α → β → Prop} {as : List α} {bs : List β}
    (h : List.Forall₂ R as bs) (hRS : ∀ a, ∀ b ∈ bs, R a b → S a b) : List.Forall₂ S as bs := by
  induction h with
  | nil => exact .nil
  | cons hab _ ih =>
      refine .cons (hRS _ _ List.mem_cons_self hab) (ih ?_)
      exact fun a b hb => hRS a b (List.mem_cons_of_mem _ hb)

/-- What a list holds is held by the list in another order, when each change of an item keeps what
the item stands for. -/
theorem Reordered.exists_commas {α : Type} {Form : α → List Token → Prop}
    {Item : List Token → List Token → Prop} (hForm : ∀ a run, Form a run → IsItem run)
    (hItem : ∀ run other, Item run other → IsItem run)
    (hkeep : ∀ a run other, Item run other → Form a run → Form a other) {tokens others : List Token}
    (h : Reordered Item tokens others) {as : List α} (has : Commas Form as tokens) :
    ∃ as', as.Perm as' ∧ Commas Form as' others := by
  obtain ⟨pairs, pairs', hperm, hitems, hfirst, hsecond⟩ := h.exists_pairs
  have hruns : List.Forall₂ Form as (pairs.map Prod.fst) := by
    refine forall₂_of_items hForm has ?_ hfirst
    intro item hitem
    obtain ⟨pair, hpair, rfl⟩ := List.mem_map.1 hitem
    exact hItem _ _ (hitems pair hpair)
  rw [List.forall₂_map_right_iff] at hruns
  have hchanged : List.Forall₂ (fun a pair => Form a pair.2) as pairs :=
    forall₂_imp_of_mem hruns fun a pair hpair => hkeep a _ _ (hitems pair hpair)
  obtain ⟨as', has', hruns'⟩ := exists_perm_forall₂ hchanged hperm
  exact ⟨as', has', commas_of_forall₂ hsecond (List.forall₂_map_right_iff.2 hruns')⟩

/-! ## Storage -/

/-- An entry `name : type = initial ;`, whose type and initial value may be empty. -/
def IsStorageEntry (run : List Token) : Prop :=
  ∃ l colon type equal initial semicolon,
    run = .leaf l :: colon :: (type ++ equal :: (initial ++ [semicolon])) ∧ l.kind = .ident ∧
    colon.isLeaf .colon = true ∧ (∀ t ∈ type, t.isLeaf .equal = false) ∧
    equal.isLeaf .equal = true ∧ (∀ t ∈ initial, t.isLeaf .semicolon = false) ∧
    semicolon.isLeaf .semicolon = true

/-- Two lists of storage hold the same entries in some order. -/
def StorageReordered (tokens others : List Token) : Prop :=
  ∃ entries entries' : List (List Token), entries.Perm entries' ∧
    (∀ entry ∈ entries, IsStorageEntry entry) ∧ tokens = entries.flatten ∧
    others = entries'.flatten

theorem StorageReordered.symm {tokens others : List Token} (h : StorageReordered tokens others) :
    StorageReordered others tokens := by
  obtain ⟨entries, entries', hperm, hentries, hfirst, hsecond⟩ := h
  exact ⟨entries', entries, hperm.symm, fun entry h => hentries entry (hperm.mem_iff.2 h), hsecond,
    hfirst⟩

/-- An entry of storage with this name, type and initial value. -/
def IsStaticEntry (entry : Bytes × Static) (run : List Token) : Prop :=
  ∃ name colon equal semicolon,
    run = name :: colon :: (entry.2.type ++ equal :: (entry.2.initial ++ [semicolon])) ∧
    IsName entry.1 name ∧ colon.isLeaf .colon = true ∧ IsRun .equal entry.2.type ∧
    equal.isLeaf .equal = true ∧ IsRun .semicolon entry.2.initial ∧
    semicolon.isLeaf .semicolon = true

/-- Storage is cut into its entries in one way. -/
theorem forall₂_of_isStaticEntries {runs : List (List Token)}
    (hruns : ∀ run ∈ runs, IsStorageEntry run) :
    ∀ {entries : List (Bytes × Static)}, IsStaticEntries entries runs.flatten →
      List.Forall₂ IsStaticEntry entries runs := by
  induction runs with
  | nil =>
      intro entries h
      generalize htokens : ([] : List (List Token)).flatten = tokens at h
      cases h with
      | nil => exact .nil
      | cons => cases htokens
  | cons run runs ih =>
      intro entries h
      obtain ⟨l, colon, type, equal, initial, semicolon, rfl, hname, hcolon, htype, hequal,
        hinitial, hsemicolon⟩ := hruns _ List.mem_cons_self
      generalize htokens : (List.flatten (_ :: runs)) = tokens at h
      cases h with
      | nil => simp at htokens
      | @cons entry others name colon' equal' semicolon' rest hname' hcolon' htype' hequal'
          hinitial' hsemicolon' hrest =>
          simp only [List.flatten_cons, List.cons_append, List.append_assoc, List.nil_append,
            List.cons.injEq] at htokens
          -- the type ends at the first `=`, and the initial value at the first semicolon behind it
          obtain ⟨rfl, rfl, hbehind⟩ := htokens
          obtain ⟨rfl, hbehind'⟩ :=
            eq_of_append_stop_eq htype htype'.stopless hequal hequal' hbehind
          obtain ⟨rfl, rfl⟩ :=
            eq_of_append_stop_eq hinitial hinitial'.stopless hsemicolon hsemicolon' hbehind'
          refine .cons ?_ (ih (fun run h => hruns run (List.mem_cons_of_mem _ h)) hrest)
          exact ⟨_, colon, equal, semicolon, rfl, hname', hcolon, htype', hequal, hinitial',
            hsemicolon⟩

theorem isStaticEntries_of_forall₂ {entries : List (Bytes × Static)} {runs : List (List Token)}
    (h : List.Forall₂ IsStaticEntry entries runs) : IsStaticEntries entries runs.flatten := by
  induction h with
  | nil => exact .nil
  | cons hentry _ ih =>
      obtain ⟨name, colon, equal, semicolon, rfl, hname, hcolon, htype, hequal, hinitial,
        hsemicolon⟩ := hentry
      have hentries := IsStaticEntries.cons hname hcolon htype hequal hinitial hsemicolon ih
      simpa using hentries

/-- Storage is the same in any order of its entries. -/
theorem StorageReordered.areStatics {tokens others : List Token}
    (h : StorageReordered tokens others) {statics : Statics}
    (hstatics : AreStatics statics tokens) : AreStatics statics others := by
  obtain ⟨runs, runs', hperm, hruns, rfl, rfl⟩ := h
  obtain ⟨entries, hentries, hlists⟩ := hstatics
  obtain ⟨entries', hentries', hrelated⟩ :=
    exists_perm_forall₂ (forall₂_of_isStaticEntries hruns hentries) hperm
  exact ⟨entries', isStaticEntries_of_forall₂ hrelated, hlists.perm hentries'⟩

/-! ## Names -/

/-- A name in a list of names, which stays as it is. -/
def SameName (run other : List Token) : Prop := other = run ∧ ∃ l, run = [.leaf l] ∧ l.kind = .ident

theorem isItem_ident {l : Leaf} (h : l.kind = .ident) : IsItem [.leaf l] := by
  refine ⟨by simp, ?_⟩
  intro t ht
  obtain rfl := List.mem_singleton.1 ht
  rw [Token.isLeaf, h]
  rfl

/-- Names are the same in any order. -/
theorem Reordered.areIdents {tokens others : List Token} (h : Reordered SameName tokens others)
    {idents : NameSet} (hidents : AreIdents idents tokens) : AreIdents idents others := by
  obtain ⟨entries, hentries, hlists⟩ := hidents
  have hForm : ∀ entry run, IsIdent entry run → IsItem run := by
    rintro entry _ ⟨_, rfl, l, rfl, hkind, -⟩
    exact isItem_ident hkind
  have hItem : ∀ run other, SameName run other → IsItem run := by
    rintro _ _ ⟨-, l, rfl, hkind⟩
    exact isItem_ident hkind
  have hkeep : ∀ entry run other, SameName run other → IsIdent entry run → IsIdent entry other := by
    rintro entry run _ ⟨rfl, -⟩ hentry
    exact hentry
  obtain ⟨entries', hperm, hentries'⟩ := h.exists_commas hForm hItem hkeep hentries
  exact ⟨entries', hentries', hlists.perm hperm⟩

/-! ## Fields -/

/-- A field whose key stays, and whose value is changed as is allowed for this key. -/
inductive FieldChange (Value : Bytes → List Token → List Token → Prop) :
    List Token → List Token → Prop
  | field {l : Leaf} {colon : Token} {value other : List Token} :
      l.kind = .ident → colon.isLeaf .colon = true → (∀ t ∈ value, t.isLeaf .comma = false) →
      (∀ t ∈ other, t.isLeaf .comma = false) → Value l.lexeme value other →
      FieldChange Value (.leaf l :: colon :: value) (.leaf l :: colon :: other)

theorem isItem_field {l : Leaf} {colon : Token} {value : List Token} (hname : l.kind = .ident)
    (hcolon : colon.isLeaf .colon = true) (hvalue : ∀ t ∈ value, t.isLeaf .comma = false) :
    IsItem (.leaf l :: colon :: value) := by
  refine ⟨by simp, ?_⟩
  intro t ht
  rcases List.mem_cons.1 ht with rfl | ht
  · exact (isItem_ident hname).commaFree _ List.mem_cons_self
  rcases List.mem_cons.1 ht with rfl | ht
  · cases t with
    | leaf m =>
        rw [Token.isLeaf, beq_iff_eq] at hcolon
        rw [Token.isLeaf, hcolon]
        rfl
    | group d position members => rfl
  · exact hvalue t ht

theorem FieldChange.symm {Value Value' : Bytes → List Token → List Token → Prop}
    (hValue : ∀ key value other, Value key value other → Value' key other value)
    {run other : List Token} (h : FieldChange Value run other) : FieldChange Value' other run := by
  cases h with
  | field hname hcolon hvalue hother hchange =>
      exact .field hname hcolon hother hvalue (hValue _ _ _ hchange)

/-- Fields with distinct keys are the same in any order, when their values are kept. -/
theorem Reordered.exists_areFields {F : Type} {key : F → Bytes} {Value : F → List Token → Prop}
    {Change : Bytes → List Token → List Token → Prop} {tokens others : List Token}
    (h : Reordered (FieldChange Change) tokens others)
    (hfree : ∀ field value, Value field value → ∀ t ∈ value, t.isLeaf .comma = false)
    (hkeep : ∀ field value other, Change (key field) value other → Value field value →
      Value field other) {fields : List F} (hfields : AreFields key Value fields tokens) :
    ∃ fields', fields.Perm fields' ∧ AreFields key Value fields' others := by
  have hForm : ∀ field run, IsField key Value field run → IsItem run := by
    rintro field _ ⟨_, colon, value, rfl, ⟨l, rfl, hname, -⟩, hcolon, hvalue⟩
    exact isItem_field hname hcolon (hfree field value hvalue)
  have hItem : ∀ run other, FieldChange Change run other → IsItem run := by
    rintro _ _ ⟨hname, hcolon, hvalue, -, -⟩
    exact isItem_field hname hcolon hvalue
  have hkeep' : ∀ field run other, FieldChange Change run other → IsField key Value field run →
      IsField key Value field other := by
    rintro field _ _ ⟨hname, hcolon, -, -, hchange⟩ ⟨_, _, value, heq, ⟨l, rfl, hkind, hkey⟩, -,
      hvalue⟩
    simp only [List.cons.injEq, Token.leaf.injEq] at heq
    obtain ⟨rfl, rfl, rfl⟩ := heq
    rw [hkey] at hchange
    exact ⟨_, _, _, rfl, ⟨_, rfl, hkind, hkey⟩, hcolon, hkeep field _ _ hchange hvalue⟩
  obtain ⟨fields', hperm, hlisted⟩ := h.exists_commas hForm hItem hkeep' hfields.listed
  exact ⟨fields', hperm, hlisted, (hperm.map key).nodup_iff.1 hfields.distinct⟩

end RealtimeApp
