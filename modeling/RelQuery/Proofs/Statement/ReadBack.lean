import RelQuery.Proofs.Include.Places
import RelQuery.Proofs.Statement.Placeholders
import RelQuery.Proofs.Statement.Precedence

/-!
# Filters read back from their conditions

The boolean structure of a filter is kept only by words and parentheses of the text it is written
as. Read by the precedence of SQL, with the texts of its leaves not taken apart, the text has the
value of the filter, also where it stands beside the correlation of a join or of a separate node.
-/

namespace RelQuery

universe u

/-! ## SQL with one text -/

namespace Sql

variable {ps ps' qs qs' : Sql} {pss qss : List Sql} {separator : String} {n : Nat}

theorem write_append : write n (ps ++ qs) = write n ps ++ write (n + (params ps).length) qs := by
  induction ps generalizing n with
  | nil => simp [write, params]
  | cons p ps ih =>
    rw [List.cons_append, write, write, ih, String.append_assoc]
    cases p <;> simp [params, Piece.bound?, Nat.add_assoc, Nat.add_comm 1]

/-- SQL that is written with the same text and the same parameters. -/
structure SameText (ps qs : Sql) : Prop where
  write : ∀ n, ps.write n = qs.write n
  params : ps.params = qs.params

theorem SameText.refl (ps : Sql) : SameText ps ps := ⟨fun _ => rfl, rfl⟩

theorem SameText.append (h : SameText ps ps') (h' : SameText qs qs') :
    SameText (ps ++ qs) (ps' ++ qs') where
  write n := by rw [write_append, write_append, h.write, h.params, h'.write]
  params := by
    have hparams : ∀ ps qs : Sql, (ps ++ qs).params = ps.params ++ qs.params :=
      fun _ _ => List.filterMap_append
    rw [hparams, hparams, h.params, h'.params]

theorem SameText.cons (p : Piece) (h : SameText ps qs) : SameText (p :: ps) (p :: qs) :=
  .append (.refl [p]) h

theorem SameText.parenthesized (h : SameText ps qs) :
    SameText (parenthesized ps) (parenthesized qs) :=
  .cons _ (h.append (.refl [.text ")"]))

theorem join_cons : join separator (ps :: pss) = ps ++ pss.flatMap (.text separator :: ·) := by
  induction pss generalizing ps with
  | nil => simp [join]
  | cons qs pss ih => simp [join, ih]

theorem SameText.flatMap (h : List.Forall₂ SameText pss qss) :
    SameText (pss.flatMap (.text separator :: ·)) (qss.flatMap (.text separator :: ·)) := by
  induction h with
  | nil => exact .refl _
  | cons h _ ih => exact .append (.cons _ h) ih

end Sql

/-! ## The value of a filter by the texts of its leaves -/

namespace Filter

/-- A leaf without its negation. -/
def positive : Filter → Filter
  | .comparison c => .comparison { c with negated := false }
  | .computed c => .computed { c with negated := false }
  | f => f

def isNegated : Filter → Bool
  | .comparison c => c.negated
  | .computed c => c.negated
  | _ => false

/-- The text of a leaf without its negation, where the statement calls `m` by the name `table`. -/
def text (s : Schema) (m : Model) (table : String) (l : Filter) : Except PlanError Sql :=
  (·.sql) <$> l.positive.condition s m table

section
variable {α : Type u} [Lattice α] [BoundedOrder α] [Compl α]

/-- The value of a leaf, if its text has a value. -/
def textValue (v : Sql → α) (s : Schema) (m : Model) (table : String) (l : Filter) : α :=
  match l.text s m table with
  | .ok ps => if l.isNegated then (v ps)ᶜ else v ps
  | .error _ => ⊥

mutual

/-- The value of a filter by values of its leaves. -/
def value (φ : Filter → α) : Filter → α
  | .comparison c => φ (.comparison c)
  | .computed c => φ (.computed c)
  | .raw sql => φ (.raw sql)
  | .logical k fs => k.fold (valueAll φ fs)
  | .not f => (value φ f)ᶜ

def valueAll (φ : Filter → α) : List Filter → List α
  | [] => []
  | f :: fs => value φ f :: valueAll φ fs

end

theorem value_of_isLeaf {φ : Filter → α} {l : Filter} (h : l.IsLeaf) : l.value φ = φ l := by
  cases l with
  | logical | not => exact h.elim
  | _ => rfl

end

end Filter

/-! ## Reading a condition -/

open Condition

/-- An SQL text with the value of a filter, by the texts of its leaves, beside the values of the
texts around it. -/
def Filter.ReadAs (s : Schema) (m : Model) (table : String) (f : Filter) (around : List Sql)
    (ps : Sql) : Prop :=
  ∃ ws atoms, ps.SameText (spell ws) ∧ atomsOf ws = around ++ atoms ∧
    List.Forall₂ (fun l a => l.text s m table = .ok a) f.leaves atoms ∧
    ∀ (α : Type) [Lattice α] [BoundedOrder α] [Compl α] (v : Sql → α) x,
      Reading v .condition ws x ↔
        x = (around.map v).foldr (· ⊓ ·) (f.value (textValue v s m table))

/-- The words of the condition of a filter. -/
structure Filter.Words (s : Schema) (m : Model) (table : String) (f : Filter) (c : Condition)
    (ws : List Word) : Prop where
  text : c.sql.SameText (spell ws)
  atoms : List.Forall₂ (fun l a => l.text s m table = .ok a) f.leaves (atomsOf ws)
  reading : ∀ (α : Type) [Lattice α] [BoundedOrder α] [Compl α] (v : Sql → α),
    Reading v .condition ws (f.value (textValue v s m table))

namespace Condition

variable {ws us : List Word} {wss : List (List Word)} {k : Connective}

@[simp] theorem spell_append : spell (ws ++ us) = spell ws ++ spell us := List.flatMap_append

@[simp] theorem spell_cons {w : Word} : spell (w :: ws) = w.sql ++ spell ws := rfl

@[simp] theorem atomsOf_append : atomsOf (ws ++ us) = atomsOf ws ++ atomsOf us :=
  List.filterMap_append

@[simp] theorem atomsOf_cons {w : Word} : atomsOf (w :: ws) = w.atom?.toList ++ atomsOf ws := by
  cases w <;> rfl

/-- Words in parentheses. -/
def enclosed (ws : List Word) : List Word := .opening :: ws ++ [.closing]

theorem spell_enclosed : spell (enclosed ws) = Sql.parenthesized (spell ws) := by
  simp [enclosed, Sql.parenthesized, Word.sql]
  rfl

theorem atomsOf_enclosed : atomsOf (enclosed ws) = atomsOf ws := by
  simp [enclosed, Word.atom?]
  rfl

/-! ### The words that conditions are written with -/

theorem sql_wordOf : (wordOf k).sql = [.text k.sql] := by
  cases k <;> rfl

theorem sql_neutralWord : (neutralWord k).sql = [.text k.neutral] := by
  cases k <;> rfl

theorem spell_neutralWord : spell [neutralWord k] = (Condition.logical k []).sql := by
  rw [spell_cons, sql_neutralWord]
  rfl

theorem atomsOf_neutralWord : atomsOf [neutralWord k] = [] := by
  cases k <;> rfl

theorem spell_chain : spell (wss.flatMap (wordOf k :: ·)) =
    (wss.map spell).flatMap (.text k.sql :: ·) := by
  induction wss with
  | nil => rfl
  | cons ws wss ih => simp [ih, sql_wordOf]

theorem atomsOf_chain : atomsOf (wss.flatMap (wordOf k :: ·)) = wss.flatMap atomsOf := by
  have hatom : (wordOf k).atom? = none := by cases k <;> rfl
  induction wss with
  | nil => rfl
  | cons ws wss ih => simp [ih, hatom]

/-- A text that is not taken apart, negated or not. -/
def signed (negated : Bool) (ps : Sql) : List Word :=
  if negated then .not :: enclosed [.atom ps] else [.atom ps]

theorem atomsOf_signed {negated : Bool} {ps : Sql} : atomsOf (signed negated ps) = [ps] := by
  cases negated <;> rfl

theorem spell_signed {negated : Bool} {ps : Sql} :
    spell (signed negated ps) = (negateIf negated (.atom ps)).sql := by
  have hatom : spell [.atom ps] = ps := List.append_nil ps
  cases negated with
  | false => exact hatom
  | true => rw [signed, if_pos rfl, spell_cons, spell_enclosed, hatom]; rfl

theorem reading_signed {α : Type u} [Lattice α] [BoundedOrder α] [Compl α] {v : Sql → α}
    {negated : Bool} {ps : Sql} :
    Reading v .condition (signed negated ps) (if negated then (v ps)ᶜ else v ps) := by
  have hatom : Reading v .factor [.atom ps] (v ps) := .atom
  cases negated with
  | false => exact .term (.factor hatom)
  | true => exact .term (.factor (.not (.parenthesized (.term (.factor hatom)))))

end Condition

namespace Filter

variable {s : Schema} {m : Model} {table : String} {f l : Filter} {fs : List Filter}
  {c : Condition} {cs : List Condition} {ws : List Word} {k : Connective}

/-! ### Leaves -/

theorem sameText_computed {t : Model} {name expression literal : String} {op : Operator}
    {negated : Bool} :
    Sql.SameText [.text (Computed.condition t name expression op literal negated)]
      (negateIf negated
        (.atom [.text (Computed.condition t name expression op literal false)])).sql := by
  cases negated with
  | false => exact .refl _
  | true =>
    refine ⟨fun n => ?_, rfl⟩
    change ("NOT " ++ "(" ++ Computed.condition t name expression op literal false ++ ")") ++ "" =
      "NOT " ++ ("(" ++ (Computed.condition t name expression op literal false ++ (")" ++ "")))
    simp only [String.append_assoc]

/-- A leaf is written as its text, in parentheses after NOT if it is negated. -/
theorem text_of_isLeaf (hl : f.IsLeaf) (h : f.condition s m table = .ok c) :
    ∃ ps, f.text s m table = .ok ps ∧ c.sql.SameText (negateIf f.isNegated (.atom ps)).sql := by
  cases f with
  | comparison cmp =>
    obtain ⟨column, hcolumn, h⟩ := bind_eq_ok.mp h
    obtain ⟨ps, hps, h⟩ := bind_eq_ok.mp h
    cases h
    refine ⟨ps, ?_, .refl _⟩
    change (·.sql) <$> (cmp.column s m table >>= fun column => cmp.sql column >>= fun ps =>
      pure (negateIf false (.atom ps))) = .ok ps
    rw [hcolumn, ok_bind, hps]
    rfl
  | computed cmp =>
    obtain ⟨t, ht, h⟩ := bind_eq_ok.mp h
    cases h
    refine ⟨_, ?_, sameText_computed⟩
    simp only [text, positive, condition, ht]
    rfl
  | raw sql =>
    cases h
    exact ⟨_, rfl, .refl _⟩
  | logical | not => exact hl.elim

theorem words_of_isLeaf (hl : f.IsLeaf) (h : f.condition s m table = .ok c) :
    ∃ ws, f.Words s m table c ws := by
  obtain ⟨ps, hps, htext⟩ := text_of_isLeaf hl h
  have hleaves : f.leaves = [f] := by
    cases f with
    | logical | not => exact hl.elim
    | _ => rfl
  refine ⟨signed f.isNegated ps, spell_signed ▸ htext, ?_, fun α _ _ _ v => ?_⟩
  · rw [hleaves, atomsOf_signed]
    exact .cons hps .nil
  · rw [value_of_isLeaf hl, textValue, hps]
    exact reading_signed

/-! ### Operands -/

/-- The words of the operands of a connective, in parentheses. -/
structure OperandWords (s : Schema) (m : Model) (table : String) (fs : List Filter)
    (cs : List Condition) (wss : List (List Word)) : Prop where
  text : List.Forall₂ Sql.SameText (operandsSql cs) (wss.map spell)
  atoms : List.Forall₂ (fun l a => l.text s m table = .ok a) (leavesAll fs) (wss.flatMap atomsOf)
  reading : ∀ (α : Type) [Lattice α] [BoundedOrder α] [Compl α] (v : Sql → α),
    List.Forall₂ (Reading v .factor) wss (valueAll (textValue v s m table) fs)

theorem exists_operandWords (h : List.Forall₂ (fun f c => ∃ ws, f.Words s m table c ws) fs cs) :
    ∃ wss, OperandWords s m table fs cs wss := by
  induction h with
  | nil => exact ⟨[], .nil, .nil, fun _ _ _ _ _ => .nil⟩
  | @cons f c fs cs h _ ih =>
    obtain ⟨ws, hws⟩ := h
    obtain ⟨wss, hwss⟩ := ih
    refine ⟨enclosed ws :: wss, ?_, ?_, fun α _ _ _ v => ?_⟩
    · rw [List.map_cons, spell_enclosed]
      exact .cons hws.text.parenthesized hwss.text
    · rw [leavesAll, List.flatMap_cons, atomsOf_enclosed]
      exact List.rel_append hws.atoms hwss.atoms
    · exact .cons (.parenthesized (hws.reading α v)) (hwss.reading α v)

/-- Without operands a connective is written as its value. -/
theorem words_nil : (logical k []).Words s m table (.logical k []) [neutralWord k] where
  text := spell_neutralWord ▸ .refl _
  atoms := atomsOf_neutralWord ▸ .nil
  reading _ _ _ _ _ := .term (.factor .neutral)

/-- The operands of a connective are read as a chain. -/
theorem Words.chain {wss : List (List Word)} (h : f.Words s m table c ws)
    (hs : OperandWords s m table fs cs wss) :
    (logical k (f :: fs)).Words s m table (.logical k (c :: cs))
      (enclosed ws ++ wss.flatMap (wordOf k :: ·)) where
  text := by
    have hsql : (Condition.logical k (c :: cs)).sql = Sql.parenthesized c.sql ++
        (operandsSql cs).flatMap (.text k.sql :: ·) := by
      rw [Condition.sql, if_neg (by simp), operandsSql, Sql.join_cons]
    rw [hsql, spell_append, spell_enclosed, spell_chain]
    exact h.text.parenthesized.append (.flatMap hs.text)
  atoms := by
    rw [atomsOf_append, atomsOf_enclosed, atomsOf_chain]
    exact List.rel_append h.atoms hs.atoms
  reading α _ _ _ v := by
    have hfirst : Reading v .factor (enclosed ws) _ := .parenthesized (h.reading α v)
    exact .ofChain (hfirst.toChain.chain (hs.reading α v))

/-- The words of a negation. -/
theorem Words.negation (h : f.Words s m table c ws) :
    (Filter.not f).Words s m table (.negation c) (.not :: enclosed ws) where
  text := by
    rw [spell_cons, spell_enclosed]
    exact .cons _ h.text.parenthesized
  atoms := by
    rw [atomsOf_cons, atomsOf_enclosed]
    exact h.atoms
  reading α _ _ _ v := .term (.factor (.not (.parenthesized (h.reading α v))))

/-- The condition of a filter is spelled with words that are read as the filter. -/
theorem exists_words (h : f.condition s m table = .ok c) : ∃ ws, f.Words s m table c ws := by
  induction f generalizing c with
  | comparison | computed | raw => exact words_of_isLeaf trivial h
  | logical k fs ih =>
    obtain ⟨cs, hcs, h⟩ := bind_eq_ok.mp h
    cases h
    rw [conditions_eq_mapM] at hcs
    have hwords : List.Forall₂ (fun f c => ∃ ws, f.Words s m table c ws) fs cs :=
      ((List.forall₂_and_left fs cs).mpr ⟨@ih, forall₂_of_mapM hcs⟩).imp fun _ _ h => h.1 h.2
    cases hwords with
    | nil => exact ⟨_, words_nil⟩
    | cons hf hfs =>
      obtain ⟨ws, hws⟩ := hf
      obtain ⟨wss, hwss⟩ := exists_operandWords hfs
      exact ⟨_, hws.chain hwss⟩
  | not f ih =>
    obtain ⟨c, hc, h⟩ := bind_eq_ok.mp h
    cases h
    obtain ⟨ws, hws⟩ := ih hc
    exact ⟨_, hws.negation⟩

/-! ## Filters and what stands around them -/

variable {around atoms : List Sql} {ps : Sql}

/-- As a condition is read in no more than one way, it is enough to find one. -/
theorem ReadAs.of_reading (htext : ps.SameText (spell ws)) (hatoms : atomsOf ws = around ++ atoms)
    (hleaves : List.Forall₂ (fun l a => l.text s m table = .ok a) f.leaves atoms)
    (hreading : ∀ (α : Type) [Lattice α] [BoundedOrder α] [Compl α] (v : Sql → α),
      Reading v .condition ws
        ((around.map v).foldr (· ⊓ ·) (f.value (textValue v s m table)))) :
    f.ReadAs s m table around ps := by
  refine ⟨ws, atoms, htext, hatoms, hleaves, fun α _ _ _ v x => ⟨fun hx => ?_, ?_⟩⟩
  · exact hx.unique (hreading α v)
  · rintro rfl
    exact hreading α v

/-- The text of a filter is read as the filter. -/
theorem readAs_of_condition (h : f.condition s m table = .ok c) :
    f.ReadAs s m table [] c.sql := by
  obtain ⟨ws, hws⟩ := exists_words h
  exact .of_reading hws.text rfl hws.atoms hws.reading

/-- A filter in parentheses after AND is conjoined with what is before. -/
theorem readAs_conjunct (h : f.condition s m table = .ok c) (before : Sql) :
    f.ReadAs s m table [before] (before ++ .text " AND " :: Sql.parenthesized c.sql) := by
  obtain ⟨ws, hws⟩ := exists_words h
  have htext : (before ++ .text " AND " :: Sql.parenthesized c.sql).SameText
      (spell (.atom before :: .and :: enclosed ws)) := by
    rw [spell_cons, spell_cons, spell_enclosed]
    exact .append (.refl _) (.cons _ hws.text.parenthesized)
  refine .of_reading htext ?_ hws.atoms fun α _ _ _ v => ?_
  · rw [atomsOf_cons, atomsOf_cons, atomsOf_enclosed]
    rfl
  · exact .term (.and (.factor .atom) (.parenthesized (hws.reading α v)))

end Filter

/-! ## In statements -/

section
variable {s : Schema} {m : Model} {table : String} {f : Filter} {c : Condition}

/-- The condition is all that stands in the WHERE clause: without it the statement is the same but
for this clause. -/
theorem Select.exists_where {q : Select} (h : q.condition = some c) : ∃ before after,
    q.sql = before ++ .text " WHERE " :: c.sql ++ after ∧
      { q with condition := none }.sql = before ++ after := by
  refine ⟨.text "SELECT " :: Sql.join ", " q.columns ++ .text " FROM " ::
    Sql.named [.name q.table] q.name ++ q.joins.flatMap (·.sql),
    Select.clause " GROUP BY " (q.group.map fun c => [c.piece]) ++
      Select.clause " ORDER BY " q.order ++ Select.number " LIMIT " q.limit ++
      Select.number " OFFSET " q.offset, ?_, ?_⟩
  · rw [Select.sql, h]
    simp only [List.append_assoc]
  · rw [Select.sql]
    simp only [List.append_assoc, List.nil_append]

theorem Join.on_suffix (j : Join) : .text " ON " :: j.on <:+ j.sql :=
  ⟨.text (if j.required then " INNER JOIN " else " LEFT OUTER JOIN ") :: j.source, rfl⟩

theorem Batch.rows_infix (b : Batch) : b.rows <:+: b.sql := by
  unfold Batch.sql
  split
  · exact List.infix_rfl
  · exact ⟨[.text "SELECT * FROM ("], _, by simp only [List.append_assoc]; rfl⟩

theorem Batch.exists_where (b : Batch) : ∃ before after,
    b.rows = before ++ .text " WHERE " :: b.condition ++ .text " ORDER BY " :: after :=
  ⟨_, _, rfl⟩

end

/-- The text of a filter keeps its boolean structure: read by precedence it has the value of the
filter, on its own and in the WHERE clause of a plan, and conjoined with the correlation of a join
or of a separate node. -/
theorem Schema.conditions_read_back (s : Schema) :
    (∀ m table (f : Filter) c, f.condition s m table = .ok c → f.ReadAs s m table [] c.sql) ∧
    (∀ (p : Plan) q f, p.select s = .ok q → p.filter = some f → ∃ m, ∃ c : Condition,
      s.model p.model = .ok m ∧ f.ReadAs s m q.name [] c.sql ∧ ∃ before after,
        q.sql = before ++ .text " WHERE " :: c.sql ++ after ∧
        { q with condition := none }.sql = before ++ after) ∧
    (∀ m ns is place js f, Include.PlaceAt s m ns m m.name ns is place →
      place.node.separate = false →
      Include.joinsAll s place.base place.base.name place.nodes = .ok js →
      place.node.filter = some f → ∃ j ∈ js, j.name = place.name ∧
        .text " ON " :: j.on <:+ j.sql ∧
        f.ReadAs s place.model j.name [[j.left.piece, .text " = ", j.right.piece]] j.on) ∧
    ∀ parent (n : Include) keys b f, n.batch s parent keys = .ok b → n.filter = some f →
      ∃ assoc t, s.follow parent n.name = .ok (assoc, t) ∧
        f.ReadAs s t b.name [b.correlation] b.condition ∧ b.rows <:+: b.sql ∧ ∃ before after,
          b.rows = before ++ .text " WHERE " :: b.condition ++ .text " ORDER BY " :: after := by
  refine ⟨fun m table f c h => Filter.readAs_of_condition h, fun p q f hq hf => ?_,
    fun m ns is place js f hplace hs hjs hf => ?_, fun parent n keys b f hb hf => ?_⟩
  · obtain ⟨m, hm, hname, -, hcondition, -⟩ := Plan.select_eq_ok hq
    obtain ⟨c, hc, hcond⟩ := exists_right_of_rel (Filter.rel_condition? hcondition) hf
    exact ⟨m, c, hm, hname ▸ Filter.readAs_of_condition hcond, Select.exists_where hc⟩
  · obtain ⟨j, hj, hname, hcondition⟩ := hplace.written.joined hs js hjs
    obtain ⟨c, hc, hcond⟩ := exists_right_of_rel (Filter.rel_condition? hcondition) hf
    refine ⟨j, hj, hname, j.on_suffix, ?_⟩
    rw [Join.on, hc]
    exact Filter.readAs_conjunct hcond _
  · obtain ⟨assoc, t, hfollow, hname, -, hcondition⟩ := Include.batch_eq_ok hb
    rw [hname]
    obtain ⟨c, hc, hcond⟩ := exists_right_of_rel (Filter.rel_condition? hcondition) hf
    refine ⟨assoc, t, hfollow, ?_, b.rows_infix, b.exists_where⟩
    rw [Batch.condition, hc]
    exact Filter.readAs_conjunct hcond _

/-! ### Keys and the lack of them -/

/-- The negation of an empty disjunction, or an empty conjunction with a key that is not null. -/
def keyed : Filter := .logical .or [.not (.logical .or []), .logical .and [.logical .and [],
  .comparison ⟨⟨[], "id", []⟩, .is, .plain .null, some .integer, true⟩]]

def keyedChildren (separate : Bool) : Include :=
  { Plan.childrenNode false with filter := some keyed, separate }

def keyedPlan : Plan where
  model := "Node"
  attributes := [.column "id"]
  includes := [keyedChildren false]
  filter := some keyed

theorem keyedPlan_read_back : ∃ m q c j b, Plan.forest.model "Node" = .ok m ∧
    keyedPlan.select Plan.forest = .ok q ∧ (keyedChildren true).batch Plan.forest m [] = .ok b ∧
    j ∈ q.joins ∧ keyed.condition Plan.forest m m.name = .ok c ∧
    c.sql.write 0 = "(NOT (FALSE)) OR ((TRUE) AND (NOT (\"Node\".\"id\" IS NULL)))" ∧
    keyed.ReadAs Plan.forest m m.name [] c.sql ∧
    (∃ c : Condition, keyed.ReadAs Plan.forest m q.name [] c.sql) ∧
    keyed.ReadAs Plan.forest m j.name [[j.left.piece, .text " = ", j.right.piece]] j.on ∧
    keyed.ReadAs Plan.forest m b.name [b.correlation] b.condition := by
  obtain ⟨hcondition, hplan, hjoin, hbatch⟩ := Plan.forest.conditions_read_back
  obtain ⟨q, hq⟩ : ∃ q, keyedPlan.select Plan.forest = .ok q := ⟨_, rfl⟩
  obtain ⟨m, c', hm, hwhere, -⟩ := hplan keyedPlan q keyed hq rfl
  have hjoins : Include.joinsAll Plan.forest m m.name keyedPlan.includes = .ok q.joins := by
    obtain ⟨m', hm', -, hjoins, -⟩ := Plan.select_eq_ok hq
    cases hm.symm.trans hm'
    exact hjoins
  obtain ⟨assoc, hf⟩ : ∃ assoc, Plan.forest.follow m "children" = .ok (assoc, m) := by
    cases hm
    exact ⟨_, rfl⟩
  obtain ⟨c, hc, htext⟩ : ∃ c, keyed.condition Plan.forest m m.name = .ok c ∧ c.sql.write 0 =
      "(NOT (FALSE)) OR ((TRUE) AND (NOT (\"Node\".\"id\" IS NULL)))" := by
    cases hm
    exact ⟨_, rfl, by decide +kernel⟩
  obtain ⟨b, hb⟩ : ∃ b, (keyedChildren true).batch Plan.forest m [] = .ok b := by
    cases hm
    exact ⟨_, rfl⟩
  obtain ⟨j, hj, -, -, hon⟩ :=
    hjoin m keyedPlan.includes [0] _ _ keyed (.here rfl hf) rfl hjoins rfl
  obtain ⟨assoc', t, hf', hseparate, -⟩ := hbatch m _ [] b keyed hb rfl
  cases hf.symm.trans hf'
  exact ⟨m, q, c, j, b, hm, hq, hb, hj, hc, htext, hcondition _ _ _ _ hc, ⟨c', hwhere⟩, hon,
    hseparate⟩

end RelQuery
