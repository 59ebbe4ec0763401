import RelQuery.Proofs.Include.Capped
import RelQuery.Proofs.Include.Simulated
import RelQuery.Proofs.Selection.Copied

/-!
# Fragments are transparent

The plan of a list is that of the same list with every spread and inline fragment replaced in place
by its selections, and it stays the same if selections are written again, in the list or in its
fragments. That holds of errors as well.
-/

namespace RelQuery.Query

open ExecutionInfo Selection Include

variable {s : Schema} {model : String} {field : Field} {info info' : ExecutionInfo}
  {out out' sels : List Selection}

theorem rootList_of_inlines (hinfo : info.Closed) (h : info.Inlines sels out) :
    rootList s model { field with selections := out } info =
      rootList s model { field with selections := sels } info :=
  rootList_eq (simulates_inlines hinfo) rfl h heightAll_lt_depthBound_self
    (heightAll_lt_depthBound hinfo h)

theorem rootList_of_copies (field : Field) (hbind : info.bindings = info'.bindings)
    (hout : Plain out) (h : Selection.Copies out out') :
    rootList s model { field with selections := out } info =
      rootList s model { field with selections := out' } info' :=
  rootList_eq simulates_copies hbind ⟨hout, h⟩ heightAll_lt_depthBound_self
    (h.heightAll_eq ▸ heightAll_lt_depthBound_self)

/-- With fragments that are defined and do not reach themselves, a list has the plan or the error
of the list with its fragments in place, and of every list that differs in selections which are
written again. -/
theorem rootList_transparent (hinfo : info.Closed)
    (hfield : ∀ name ∈ spreadsAll field.selections, (info.fragments.lookup name).isSome) :
    (∃ out, info.Inlines field.selections out) ∧
      (∀ out, info.Inlines field.selections out →
        rootList s model { field with selections := out } info = rootList s model field info) ∧
      ∀ sels info', Selection.Copies field.selections sels → info.Copies info' →
        rootList s model { field with selections := sels } info' =
          rootList s model field info := by
  obtain ⟨out, hout⟩ := exists_inlines hinfo inside_nil hfield
  refine ⟨⟨out, hout⟩, fun out hout => rootList_of_inlines hinfo hout, ?_⟩
  intro sels info' hsels hinfo'
  obtain ⟨out₁, hout₁, hcopies₁⟩ := hout.exists_of_copies hinfo'
  obtain ⟨out₂, hout₂, hcopies₂⟩ := hout₁.exists_copies hsels
  calc rootList s model { field with selections := sels } info'
    _ = rootList s model { field with selections := out₂ } info' :=
        (rootList_of_inlines (hinfo'.closed hinfo) hout₂).symm
    _ = rootList s model { field with selections := out } info :=
        (rootList_of_copies field hinfo'.bindings hout.plain (hcopies₁.trans hcopies₂)).symm
    _ = rootList s model field info := rootList_of_inlines hinfo hout

/-! ### The customers and notes of orders -/

def idField : Selection := .field "id" none [] []

/-- The card of an order shows its customer; notes are for customers. -/
def cards (customer : List Selection) : ExecutionInfo where
  fragments := [
    ("Card", { name := "Card", selections := [.field "customer" none [] customer] }),
    ("Notes", { name := "Notes", selections := [.field "notes" none [] [idField]] })]

/-- The card spreads the notes in its field. -/
def cardInfo : ExecutionInfo := cards [idField, .spread "Notes"]

def ordersOf (selections : List Selection) : Field where
  name := "orders"
  selections

def ordersField : Field := ordersOf [.inline (some "Order") [idField], .spread "Card"]

/-- The orders with the card and its notes in place. -/
def ordersInPlace : Field := ordersOf [
  idField, .field "customer" none [] [idField, .field "notes" none [] [idField]]]

/-- The key of the order is written again under a label, and in the card that of the customer. -/
def ordersAgain : Field :=
  ordersOf [.inline (some "Order") [idField, .field "id" (some "id") [] []], .spread "Card"]

def cardInfoAgain : ExecutionInfo := cards [idField, .spread "Notes", idField]

def cardPlan : Plan where
  model := "Order"
  attributes := [.column "id", .column "customerId"]
  includes := [{
    target := "Customer"
    name := "customer"
    kind := .belongsTo
    attributes := ["id"]
    includes := [
      { target := "Note", name := "notes", kind := .hasMany, attributes := ["id"] }] }]

theorem spreads_cardInfo {a b : String} (h : cardInfo.Spreads a b) : a = "Card" ∧ b = "Notes" := by
  obtain ⟨fragment, hfragment, hb⟩ := h
  rw [cardInfo, cards, lookup_cons_if, lookup_cons_if] at hfragment
  split at hfragment
  · rename_i ha
    cases hfragment
    exact ⟨ha, List.mem_singleton.mp hb⟩
  · split at hfragment
    · cases hfragment
      cases hb
    · cases hfragment

theorem closed_cardInfo : cardInfo.Closed where
  named name fragment hfragment := by
    rw [cardInfo, cards, lookup_cons_if, lookup_cons_if] at hfragment
    split at hfragment
    · rename_i ha
      cases hfragment
      exact ha.symm
    · split at hfragment
      · rename_i ha
        cases hfragment
        exact ha.symm
      · cases hfragment
  defined a b h := (spreads_cardInfo h).2 ▸ rfl
  acyclic name h := by
    obtain ⟨b, hfirst, -⟩ := Relation.TransGen.head'_iff.mp h
    obtain ⟨b, -, hlast⟩ := Relation.TransGen.tail'_iff.mp h
    have heq := (spreads_cardInfo hfirst).1.symm.trans (spreads_cardInfo hlast).2
    revert heq
    decide

theorem ordersField_inlines :
    cardInfo.Inlines ordersField.selections ordersInPlace.selections := by
  have hid : cardInfo.Inlines [idField] [idField] := .field .nil .nil
  have hnotes : cardInfo.Inlines [.spread "Notes"] [.field "notes" none [] [idField]] :=
    .spread_singleton rfl (.field hid .nil)
  have hcard : cardInfo.Inlines [.spread "Card"]
      [.field "customer" none [] [idField, .field "notes" none [] [idField]]] :=
    .spread_singleton rfl (.field (hid.append hnotes) .nil)
  exact .inline hid hcard

theorem ordersField_copies :
    Selection.Copies ordersField.selections ordersAgain.selections := by
  have hid : List.Forall₂ Same [idField] [.field "id" (some "id") [] []] := .cons (.field rfl) .nil
  exact .single (.inline [] [.spread "Card"] (.here [] [] [] hid))

theorem cardInfo_copies : cardInfo.Copies cardInfoAgain where
  bindings := rfl
  fragments := by
    have hkey : Selection.Copied [idField, .spread "Notes"] [idField, .spread "Notes", idField] :=
      .here [] [.spread "Notes"] [] (.cons (.refl idField) .nil)
    exact .cons ⟨rfl, rfl, .single (.field [] [] hkey)⟩ (.cons ⟨rfl, rfl, .refl⟩ .nil)

theorem rootList_ordersInPlace :
    rootList contactsSchema "Order" ordersInPlace cardInfo = .ok cardPlan := by
  have hplan : rootList contactsSchema "Order" ordersInPlace {} = .ok cardPlan := rfl
  have hbind : cardInfo.bindings = ExecutionInfo.bindings {} := rfl
  rw [← hplan]
  exact rootList_of_copies ordersInPlace hbind ordersField_inlines.plain .refl

theorem ordersField_defined : ∀ name ∈ spreadsAll ordersField.selections,
    (cardInfo.fragments.lookup name).isSome := by decide

/-- Three ways to ask for orders have one plan. -/
theorem ordersField_transparent : cardInfo.Closed ∧
    (∀ name ∈ spreadsAll ordersField.selections, (cardInfo.fragments.lookup name).isSome) ∧
    rootList contactsSchema "Order" ordersInPlace cardInfo = .ok cardPlan ∧
    rootList contactsSchema "Order" ordersField cardInfo = .ok cardPlan ∧
    rootList contactsSchema "Order" ordersAgain cardInfoAgain = .ok cardPlan := by
  obtain ⟨-, hinlined, hagain⟩ :=
    rootList_transparent (s := contactsSchema) closed_cardInfo ordersField_defined
  have hfield : rootList contactsSchema "Order" ordersField cardInfo = .ok cardPlan :=
    (hinlined _ ordersField_inlines).symm.trans rootList_ordersInPlace
  exact ⟨closed_cardInfo, ordersField_defined, rootList_ordersInPlace, hfield,
    (hagain _ _ ordersField_copies cardInfo_copies).trans hfield⟩

end RelQuery.Query
