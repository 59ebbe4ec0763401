import RelQuery.Proofs.Rows.Batches

/-!
# Values put back

The values that rows have under the name of an association are taken out of all of them into one
list, and a list of the same length is put back. Every row gets what stands in that list where its
own values stood, and nothing else of it changes.
-/

namespace RelQuery.Rows

/-- A row has an array, an object, `null` or nothing under a name. -/
def Fillable (name : String) (row : Document) : Prop :=
  match row.get? name with
  | none | some .null | some (.arr _) | some (.obj _) => True
  | some _ => False

/-- The row `row'` is `row` with `values'` where it has `values` under a name: an array has them as
its items, an object is the only one of them. -/
inductive Refill (name : String) : Document → List Document → List Document → Document → Prop
  | array {before after : Fields} {items items' : List Document} :
      name ∉ before.map (·.1) → items'.length = items.length →
      Refill name (.obj (before ++ (name, .arr items) :: after)) items items'
        (.obj (before ++ (name, .arr items') :: after))
  | object {before after fields : Fields} {value : Document} : name ∉ before.map (·.1) →
      Refill name (.obj (before ++ (name, .obj fields) :: after)) [.obj fields] [value]
        (.obj (before ++ (name, value) :: after))
  | null {row : Document} : row.get? name = some .null → Refill name row [] [] row
  | absent {row : Document} : row.get? name = none → Refill name row [] [] row

/-- Rows are refilled one after the other, from two lists that are cut in the same places. -/
inductive Refills (name : String) :
    List Document → List Document → List Document → List Document → Prop
  | nil : Refills name [] [] [] []
  | cons {row row' : Document} {own own' values values' rows rows' : List Document} :
      Refill name row own own' row' → Refills name rows values values' rows' →
      Refills name (row :: rows) (own ++ values) (own' ++ values') (row' :: rows')

variable {name : String} {row row' value : Document}
  {own own' values values' rows rows' : List Document}

/-! ## One row -/

theorem length_eq_of_refill (h : Refill name row own own' row') : own'.length = own.length := by
  cases h with
  | array _ hlength => exact hlength
  | object => rfl
  | null => rfl
  | absent => rfl

/-- A value that is set takes the place of the one that was there. -/
theorem exists_setField (h : row.get? name = some value) : ∃ before after,
    name ∉ before.map (·.1) ∧ row = .obj (before ++ (name, value) :: after) ∧
      ∀ value', setField name value' row = .obj (before ++ (name, value') :: after) := by
  cases row with
  | obj fields =>
    obtain ⟨before, after, rfl, hbefore⟩ := List.lookup_eq_some_iff.mp h
    have hname : name ∉ before.map (·.1) := by
      intro hmem
      obtain ⟨f, hf, rfl⟩ := List.mem_map.mp hmem
      simpa using hbefore f hf
    exact ⟨before, after, hname, rfl, fun _ =>
      congrArg Document.obj (Fields.insert_append_cons hname)⟩
  | _ => cases h

theorem refill_refilled (hrow : Fillable name row)
    (hlength : own.length = (takeFrom name row).2.1.length) :
    Refill name row (takeFrom name row).2.1 own (refilled name own row) := by
  unfold Fillable at hrow
  unfold refilled
  unfold takeFrom at hlength ⊢
  cases hvalue : row.get? name with
  | none =>
    rw [hvalue] at hlength
    cases List.eq_nil_of_length_eq_zero hlength
    exact .absent hvalue
  | some value =>
    rw [hvalue] at hlength hrow
    obtain ⟨before, after, hname, heq, hset⟩ := exists_setField hvalue
    cases value with
    | arr items =>
      dsimp only
      rw [hset, heq]
      exact .array hname hlength
    | obj fields =>
      obtain ⟨child, rfl⟩ := List.length_eq_one_iff.mp hlength
      dsimp only
      rw [hset, heq]
      exact .object hname
    | null =>
      cases List.eq_nil_of_length_eq_zero hlength
      dsimp only
      rw [hset, ← heq]
      exact .null hvalue
    | _ => exact hrow.elim

/-- A row that is refilled with its own values stays as it is. -/
theorem Refill.eq_self (h : Refill name row own own row') : row' = row := by
  cases h <;> rfl

/-! ## All rows -/

theorem refills_putChildren (hrows : ∀ row ∈ rows, Fillable name row)
    (hlength : values.length = (takeChildren name rows).2.1.length) :
    Refills name rows (takeChildren name rows).2.1 values
      (putChildren name (takeChildren name rows).1 (takeChildren name rows).2.2 values) := by
  induction rows generalizing values with
  | nil =>
    cases List.eq_nil_of_length_eq_zero hlength
    exact .nil
  | cons row rows ih =>
    have htaken : (takeChildren name (row :: rows)).2.1 =
        (takeFrom name row).2.1 ++ (takeChildren name rows).2.1 := rfl
    rw [List.forall_mem_cons] at hrows
    rw [htaken, List.length_append] at hlength
    obtain ⟨own, rest, rfl, hown⟩ : ∃ own rest, values = own ++ rest ∧
        own.length = (takeFrom name row).2.1.length :=
      ⟨_, _, (List.take_append_drop _ values).symm, List.length_take_of_le (by omega)⟩
    rw [List.length_append, hown, Nat.add_left_cancel_iff] at hlength
    have hput : putChildren name (takeChildren name (row :: rows)).1
        (takeChildren name (row :: rows)).2.2 (own ++ rest) = refilled name own row ::
          putChildren name (takeChildren name rows).1 (takeChildren name rows).2.2 rest :=
      putChildren_taken hown
    rw [htaken, hput]
    exact .cons (refill_refilled hrows.1 hown) (ih hrows.2 hlength)

/-- Both lists are cut in the same places, so equal lists have equal parts. -/
theorem Refills.eq_self (h : Refills name rows values values' rows') (heq : values' = values) :
    rows' = rows := by
  induction h with
  | nil => rfl
  | cons hrow _ ih =>
    obtain ⟨rfl, hrest⟩ := List.append_inj heq (length_eq_of_refill hrow)
    rw [hrow.eq_self, ih hrest]

/-- Values that are put back in place of those that were taken out come to the rows these are from,
and to nothing else in them. The values that were taken out give back the rows. -/
theorem putChildren_takeChildren (hrows : ∀ row ∈ rows, Fillable name row)
    (hlength : values.length = (takeChildren name rows).2.1.length) :
    Refills name rows (takeChildren name rows).2.1 values
      (putChildren name (takeChildren name rows).1 (takeChildren name rows).2.2 values) ∧
    putChildren name (takeChildren name rows).1 (takeChildren name rows).2.2
      (takeChildren name rows).2.1 = rows :=
  ⟨refills_putChildren hrows hlength, (refills_putChildren hrows rfl).eq_self rfl⟩

/-! ### Orders with all kinds of items -/

def item (sku : String) (more : Fields) : Document := .obj (("sku", .str sku) :: more)

def itemRows : List Document := [
  .obj [("id", .str "1"), ("items", .arr [item "A" [], item "B" []]), ("paid", .bool true)],
  .obj [("items", .null), ("id", .str "2")],
  .obj [("id", .str "3")],
  .obj [("items", .arr []), ("id", .str "4")],
  .obj [("items", item "C" []), ("id", .str "5")]]

def filledItems : List Document :=
  [item "A" [("parts", .arr [])], item "B" [("parts", .null)], .null]

theorem putChildren_itemRows : (∀ row ∈ itemRows, Fillable "items" row) ∧
    filledItems.length = (takeChildren "items" itemRows).2.1.length ∧
    Refills "items" itemRows [item "A" [], item "B" [], item "C" []] filledItems [
      .obj [("id", .str "1"),
        ("items", .arr [item "A" [("parts", .arr [])], item "B" [("parts", .null)]]),
        ("paid", .bool true)],
      .obj [("items", .null), ("id", .str "2")],
      .obj [("id", .str "3")],
      .obj [("items", .arr []), ("id", .str "4")],
      .obj [("items", .null), ("id", .str "5")]] ∧
    putChildren "items" (takeChildren "items" itemRows).1 (takeChildren "items" itemRows).2.2
      (takeChildren "items" itemRows).2.1 = itemRows := by
  have hrows : ∀ row ∈ itemRows, Fillable "items" row := by
    simp only [itemRows, List.forall_mem_cons]
    exact ⟨trivial, trivial, trivial, trivial, trivial, List.forall_mem_nil _⟩
  exact ⟨hrows, rfl, putChildren_takeChildren hrows rfl⟩

end RelQuery.Rows
