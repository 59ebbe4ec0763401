import RelQuery.Proofs.Computed.Segments

/-!
# Qualified expressions

To qualify an expression is to put every word of it that names a stored column on its own behind a
table, and to copy all else. Such words are in quotes afterwards, so qualifying once more, for
whatever table, changes nothing.
-/

namespace RelQuery.Computed

/-- A word between two texts names a stored column of `m` on its own: it is not behind a point or a
colon, and neither a parenthesis nor a point is the first that follows but white space. -/
structure BareColumn (m : Model) (before w after : List Char) : Prop where
  stored : ∃ a ∈ m.attributes, a.isComputed = false ∧ a.column.toList = w
  before : before.getLast? ≠ some '.' ∧ before.getLast? ≠ some ':'
  after : ¬Leads '(' after ∧ ¬Leads '.' after

/-- What becomes of segments that follow a text: words that are bare columns are put behind the
table, everything else is copied. -/
inductive Qualifies (m : Model) (table : String) : List Char → List Segment → List Char → Prop
  | nil {before : List Char} : Qualifies m table before [] []
  | column {before w out : List Char} {segments : List Segment} :
      BareColumn m before w (textOf segments) → Qualifies m table (before ++ w) segments out →
      Qualifies m table before (.word w :: segments)
        ((columnText table (.ofList w)).toList ++ out)
  | copy {before out : List Char} {segment : Segment} {segments : List Segment} :
      (∀ w, segment = .word w → ¬BareColumn m before w (textOf segments)) →
      Qualifies m table (before ++ segment.text) segments out →
      Qualifies m table before (segment :: segments) (segment.text ++ out)

/-- No stored column of the model has a quote in its name. -/
def PlainColumns (m : Model) : Prop := ∀ a ∈ m.attributes, a.isComputed = false →
  '\'' ∉ a.column.toList ∧ '"' ∉ a.column.toList

instance (m : Model) : Decidable (PlainColumns m) :=
  inferInstanceAs (Decidable (∀ a ∈ m.attributes, a.isComputed = false →
    '\'' ∉ a.column.toList ∧ '"' ∉ a.column.toList))

variable {m : Model} {table : String} {q c : Char}
  {before before' w token rest out out' : List Char}
  {segment : Segment} {segments : List Segment} {before? : Option Char} {fuel : Nat}

theorem Qualifies.quoted {body : List Char}
    (h : Qualifies m table (before ++ (Segment.quoted q body).text) segments out) :
    Qualifies m table before (.quoted q body :: segments)
      ((Segment.quoted q body).text ++ out) :=
  .copy nofun h

theorem Qualifies.other (h : Qualifies m table (before ++ (Segment.other c).text) segments out) :
    Qualifies m table before (.other c :: segments) ((Segment.other c).text ++ out) :=
  .copy nofun h

/-! ## The scanner -/

theorem isBareColumn_iff :
    isBareColumn m before.getLast? w rest = true ↔ BareColumn m before w rest := by
  have hany : m.attributes.any (fun a => !a.isComputed && a.column.toList == w) = true ↔
      ∃ a ∈ m.attributes, a.isComputed = false ∧ a.column.toList = w := by
    simp [List.any_eq_true]
  rw [isBareColumn, Bool.and_eq_true, Bool.and_eq_true, hany]
  simp only [Bool.not_eq_true', Bool.or_eq_false_iff, decide_eq_false_iff_not]
  rw [head?_trimStart_iff (by decide), head?_trimStart_iff (by decide)]
  exact ⟨fun ⟨⟨hs, hb⟩, ha⟩ => ⟨hs, hb, ha⟩, fun ⟨hs, hb, ha⟩ => ⟨⟨hs, hb⟩, ha⟩⟩

theorem qualifyFrom_token (h : tokenLength? (token ++ rest) = some token.length)
    (hne : token ≠ []) : qualifyFrom m table (fuel + 1) before? (token ++ rest) =
      (if isBareColumn m before? token rest then (columnText table (.ofList token)).toList
        else token) ++ qualifyFrom m table fuel token.getLast? rest := by
  obtain ⟨c, cs, rfl⟩ := List.exists_cons_of_ne_nil hne
  rw [List.cons_append] at h ⊢
  rw [qualifyFrom, h]
  dsimp only
  rw [← List.cons_append, List.take_left, List.drop_left]

theorem not_bareColumn_quoted (hm : PlainColumns m) (hq : q = '\'' ∨ q = '"') (hmem : q ∈ token) :
    ¬BareColumn m before token rest := by
  rintro ⟨⟨a, ha, hstored, rfl⟩, -, -⟩
  rcases hq with rfl | rfl
  · exact (hm a ha hstored).1 hmem
  · exact (hm a ha hstored).2 hmem

theorem getLast?_append_text (h : segment.Before rest) :
    (before ++ segment.text).getLast? = segment.text.getLast? := by
  rw [List.getLast?_append, List.getLast?_eq_some_getLast (text_ne_nil h), Option.some_or]

/-- Only a quoted text begins with a quote. -/
theorem exists_quoted (hcut : Cut segments) (hq : q = '\'' ∨ q = '"')
    (h : (textOf segments).head? = some q) : ∃ body more, segments = .quoted q body :: more := by
  cases hcut with
  | nil => cases h
  | cons hbefore hcut =>
    cases hbefore with
    | @quoted _ body _ =>
      cases h
      exact ⟨body, _, rfl⟩
    | word hstart =>
      cases h
      exact (not_quote_of_inWord (inWord_of_beginsWord hstart) hq).elim
    | other hsingle hdouble =>
      cases h
      exact (hq.elim hsingle hdouble).elim

theorem text_quoted_append {body body' : List Char} :
    (Segment.quoted q body).text ++ (Segment.quoted q body').text =
      (Segment.quoted q (body ++ q :: body')).text := by
  simp [Segment.text]

/-- The scanner qualifies the segments of a text. Quoted texts side by side are one token to it, so
the induction is on the number of segments: two of them are taken for one. -/
theorem qualifies_qualifyFrom (hm : PlainColumns m) (hcut : Cut segments)
    (hfuel : (textOf segments).length ≤ fuel) : Qualifies m table before segments
      (qualifyFrom m table fuel before.getLast? (textOf segments)) := by
  induction hn : segments.length using Nat.strongRecOn generalizing segments before fuel with
  | ind n ih =>
    subst hn
    cases hcut with
    | nil => cases fuel <;> exact .nil
    | @cons segment segments hbefore hcut =>
      have hpos := List.length_pos_iff.mpr (text_ne_nil hbefore)
      rw [textOf_cons, List.length_append] at hfuel
      obtain ⟨fuel, rfl⟩ := Nat.exists_eq_succ_of_ne_zero (by omega : fuel ≠ 0)
      have hrest : Qualifies m table (before ++ segment.text) segments
          (qualifyFrom m table fuel segment.text.getLast? (textOf segments)) := by
        rw [← getLast?_append_text hbefore]
        exact ih _ (Nat.lt_succ_self _) hcut (by omega) rfl
      have hbefore' := hbefore
      cases hbefore with
      | @other c _ _ _ =>
        have hnone := tokenLength?_other hbefore'
        change Qualifies m table before _
          (qualifyFrom m table (fuel + 1) before.getLast? (c :: textOf segments))
        rw [qualifyFrom, hnone]
        exact .other hrest
      | @word c cs _ _ _ =>
        rw [textOf_cons, Segment.text,
          qualifyFrom_token (tokenLength?_word hbefore') (List.cons_ne_nil _ _)]
        split
        · exact .column (isBareColumn_iff.mp ‹_›) hrest
        · rename_i hbare
          refine .copy (fun w hw => ?_) hrest
          cases hw
          exact fun hword => hbare (isBareColumn_iff.mpr hword)
      | @quoted q body hq =>
        by_cases hnext : (textOf segments).head? = some q
        · obtain ⟨body', more, rfl⟩ := exists_quoted hcut hq hnext
          cases hcut with
          | cons _ hmore =>
            have hboth : Cut (.quoted q (body ++ q :: body') :: more) := .cons (.quoted hq) hmore
            have htext : textOf (.quoted q (body ++ q :: body') :: more) =
                (Segment.quoted q body).text ++ textOf (.quoted q body' :: more) := by
              rw [textOf_cons, textOf_cons, ← List.append_assoc, text_quoted_append]
            have hone : Qualifies m table before _ (qualifyFrom m table (fuel + 1) before.getLast?
                (textOf (.quoted q (body ++ q :: body') :: more))) :=
              ih _ (Nat.lt_succ_self _) hboth (by rw [htext, List.length_append]; exact hfuel) rfl
            rw [htext] at hone
            rw [textOf_cons]
            generalize qualifyFrom m table (fuel + 1) before.getLast? _ = out at hone
            cases hone with
            | copy _ hout =>
              rw [← text_quoted_append, List.append_assoc]
              rw [← text_quoted_append, ← List.append_assoc] at hout
              exact .quoted (.quoted hout)
        · rw [textOf_cons,
            qualifyFrom_token (tokenLength?_quoted hq hnext) (text_ne_nil hbefore'), if_neg]
          · exact .quoted hrest
          · rw [isBareColumn_iff]
            exact not_bareColumn_quoted hm hq List.mem_cons_self

/-! ## Qualifying once more -/

theorem isBlank_of_beginsWord (h : beginsWord c = true) : Text.isBlank c = false := by
  have hrange : 65 ≤ c.toNat ∧ c.toNat ≤ 122 := by
    have hletter : beginsWord c = ((decide (c.val ≥ 65 ∧ c.val ≤ 90) ||
        decide (c.val ≥ 97) && decide (c.val ≤ 122)) || c == '_') := rfl
    rw [hletter] at h
    simp only [Bool.or_eq_true, Bool.and_eq_true, decide_eq_true_eq, beq_iff_eq, ge_iff_le,
      UInt32.le_iff_toNat_le] at h
    rcases h with (h | h) | rfl
    · exact ⟨h.1, Nat.le_trans h.2 (by decide)⟩
    · exact ⟨Nat.le_trans (by decide) h.1, h.2⟩
    · decide
  simp only [Text.isBlank, Bool.or_eq_false_iff, Bool.and_eq_false_iff, decide_eq_false_iff_not,
    beq_eq_false_iff_ne]
  omega

theorem isBlank_of_quote (h : q = '\'' ∨ q = '"') : Text.isBlank q = false := by
  rcases h with rfl | rfl <;> decide

theorem trimStart_cons_of_not_blank (h : Text.isBlank c = false) :
    Text.trimStart (c :: rest) = c :: rest :=
  List.dropWhile_cons_of_neg (by simp [h])

theorem trimStart_cons_of_blank (h : Text.isBlank c = true) :
    Text.trimStart (c :: rest) = Text.trimStart rest :=
  List.dropWhile_cons_of_pos h

/-- Segments begin as before, unless with a word, which may be qualified. -/
theorem Qualifies.head?_eq (h : Qualifies m table before segments out) (hcut : Cut segments)
    (hhead : ∀ c, (textOf segments).head? = some c → beginsWord c = false) :
    out.head? = (textOf segments).head? := by
  cases h with
  | nil => rfl
  | column =>
    cases hcut with
    | cons hbefore =>
      cases hbefore with
      | word hstart => exact absurd hstart (by simp [hhead _ rfl])
  | @copy _ _ segment segments _ _ =>
    cases hcut with
    | cons hbefore =>
      obtain ⟨c, cs, htext⟩ := List.exists_cons_of_ne_nil (text_ne_nil hbefore)
      rw [textOf_cons, htext]
      rfl

/-- The first character that is no blank stays, unless it begins a word. -/
theorem Qualifies.head?_trimStart (h : Qualifies m table before segments out)
    (hcut : Cut segments) (hc : beginsWord c = false)
    (hhead : (Text.trimStart (textOf segments)).head? = some c) :
    (Text.trimStart out).head? = some c := by
  induction h with
  | nil => exact hhead
  | column =>
    cases hcut with
    | cons hbefore =>
      cases hbefore with
      | word hstart =>
        rw [textOf_cons, Segment.text, List.cons_append,
          trimStart_cons_of_not_blank (isBlank_of_beginsWord hstart)] at hhead
        cases hhead
        rw [hstart] at hc
        cases hc
  | copy _ _ ih =>
    cases hcut with
    | cons hbefore hcut =>
      cases hbefore with
      | quoted hq =>
        rw [textOf_cons, Segment.text, List.cons_append, List.cons_append,
          trimStart_cons_of_not_blank (isBlank_of_quote hq)] at hhead
        rw [Segment.text, List.cons_append, List.cons_append,
          trimStart_cons_of_not_blank (isBlank_of_quote hq)]
        exact hhead
      | word hstart =>
        rw [textOf_cons, Segment.text, List.cons_append,
          trimStart_cons_of_not_blank (isBlank_of_beginsWord hstart)] at hhead
        cases hhead
        rw [hstart] at hc
        cases hc
      | @other d =>
        rw [textOf_cons, Segment.text, List.singleton_append] at hhead
        rw [Segment.text, List.singleton_append]
        cases hblank : Text.isBlank d with
        | true =>
          rw [trimStart_cons_of_blank hblank] at hhead ⊢
          exact ih hcut hhead
        | false =>
          rw [trimStart_cons_of_not_blank hblank] at hhead ⊢
          exact hhead

/-- A word that stays has reasons to stay that are left: what is before it and the next character
that is no blank do not change where they matter. -/
theorem not_bareColumn_of_copied (h : Qualifies m table (before ++ w) segments out)
    (hcut : Cut segments) (hlast : before'.getLast? = before.getLast?)
    (hnot : ¬BareColumn m before w (textOf segments)) : ¬BareColumn m before' w out := by
  have hleads : ∀ c, beginsWord c = false → Text.isBlank c = false → Leads c (textOf segments) →
      Leads c out := by
    intro c hc hblank hleads
    rw [← head?_trimStart_iff hblank] at hleads ⊢
    exact h.head?_trimStart hcut hc hleads
  rintro ⟨hstored, hbefore, hparen, hpoint⟩
  refine hnot ⟨hstored, hlast ▸ hbefore, fun hhead => ?_, fun hhead => ?_⟩
  · exact hparen (hleads '(' (by decide) (by decide) hhead)
  · exact hpoint (hleads '.' (by decide) (by decide) hhead)

theorem toList_columnText : (columnText table (.ofList w)).toList =
    textOf [.quoted '"' table.toList, .other '.', .quoted '"' w] := by
  simp [columnText, Text.identifier, Text.quote, Segment.text, textOf]

/-- What was qualified can be cut so that there is nothing more to qualify. The text before it may
have changed, but not right before a word. -/
theorem Qualifies.exists_settled (h : Qualifies m table before segments out) (hcut : Cut segments)
    (hlast : before'.getLast? = before.getLast? ∨
      ∀ c, (textOf segments).head? = some c → beginsWord c = false) :
    ∃ settled, textOf settled = out ∧ Cut settled ∧
      ∀ table', Qualifies m table' before' settled out := by
  induction h generalizing before' with
  | nil => exact ⟨[], rfl, .nil, fun _ => .nil⟩
  | @column before w out segments _ _ ih =>
    cases hcut with
    | cons hword hcut =>
      have hend : ∀ c, (textOf segments).head? = some c → beginsWord c = false := by
        cases hword with
        | word _ _ hend =>
          exact fun c hc => Bool.eq_false_iff.mpr fun hstart =>
            Bool.eq_false_iff.mp (hend c hc) (inWord_of_beginsWord hstart)
      obtain ⟨settled, rfl, hsettled, hstays⟩ :=
        @ih (before' ++ (Segment.quoted '"' table.toList).text ++ (Segment.other '.').text ++
          (Segment.quoted '"' w).text) hcut (.inr hend)
      refine ⟨.quoted '"' table.toList :: .other '.' :: .quoted '"' w :: settled, ?_,
        .cons (.quoted (.inr rfl)) (.cons (.other (by decide) (by decide) (by decide))
          (.cons (.quoted (.inr rfl)) hsettled)), fun table' => ?_⟩
      · rw [toList_columnText]
        simp
      · have hcopied : Qualifies m table' before'
            (.quoted '"' table.toList :: .other '.' :: .quoted '"' w :: settled)
            (_ ++ (_ ++ (_ ++ textOf settled))) :=
          .quoted (.other (.quoted (hstays table')))
        rw [toList_columnText]
        simpa using hcopied
  | @copy before out segment segments hnot hrest ih =>
    cases hcut with
    | cons hsegment hcut =>
      have hlast' : (before' ++ segment.text).getLast? = (before ++ segment.text).getLast? := by
        rw [getLast?_append_text hsegment, getLast?_append_text hsegment]
      obtain ⟨settled, rfl, hsettled, hstays⟩ := ih hcut (.inl hlast')
      refine ⟨segment :: settled, rfl, .cons ?_ hsettled, fun table' => .copy ?_ (hstays table')⟩
      · cases hsegment with
        | quoted hq => exact .quoted hq
        | word hstart hword hend =>
          refine .word hstart hword fun d hd => hend d ?_
          rwa [hrest.head?_eq hcut fun c hc => Bool.eq_false_iff.mpr fun hstart =>
            Bool.eq_false_iff.mp (hend c hc) (inWord_of_beginsWord hstart)] at hd
        | other hsingle hdouble hstart => exact .other hsingle hdouble hstart
      · rintro w rfl
        cases hsegment with
        | word hstart =>
          have hkept : before'.getLast? = before.getLast? :=
            hlast.resolve_right fun hhead => absurd hstart (by simp [hhead _ rfl])
          exact not_bareColumn_of_copied hrest hcut hkept (hnot _ rfl)

/-! ## Expressions -/

/-- What becomes of segments is determined. -/
theorem Qualifies.unique (h : Qualifies m table before segments out)
    (h' : Qualifies m table before segments out') : out' = out := by
  induction h generalizing out' with
  | nil =>
    cases h'
    rfl
  | column hcolumn _ ih =>
    cases h' with
    | column _ h' => rw [ih h']
    | copy hnot => exact (hnot _ rfl hcolumn).elim
  | copy hnot _ ih =>
    cases h' with
    | column hcolumn => exact (hnot _ rfl hcolumn).elim
    | copy _ h' => rw [ih h']

theorem qualifies_qualify {expression : String} (hm : PlainColumns m) (hcut : Cut segments)
    (htext : textOf segments = expression.toList) :
    Qualifies m table [] segments (qualify m table expression).toList := by
  rw [qualify, String.toList_ofList, ← htext]
  exact qualifies_qualifyFrom hm hcut (Nat.le_of_eq (by rw [htext, String.length_toList]))

/-- An expression whose quotes are closed is cut into segments, and whichever way that is done, the
words of them that are bare columns, and nothing else, are put behind the table. Qualifying once
more for any table changes nothing. -/
theorem qualify_exact {expression : String} (hm : PlainColumns m)
    (hbalanced : Balanced expression.toList) :
    (∃ segments, textOf segments = expression.toList ∧ Cut segments) ∧
    (∀ segments, textOf segments = expression.toList → Cut segments → ∀ table,
      Qualifies m table [] segments (qualify m table expression).toList) ∧
    ∀ table table', qualify m table' (qualify m table expression) = qualify m table expression := by
  have hexists := exists_cut hbalanced
  refine ⟨hexists, fun segments htext hcut table => qualifies_qualify hm hcut htext,
    fun table table' => ?_⟩
  obtain ⟨segments, htext, hcut⟩ := hexists
  have hqualifies : Qualifies m table [] segments (qualify m table expression).toList :=
    qualifies_qualify hm hcut htext
  obtain ⟨settled, hsettled, hcut', hstays⟩ := hqualifies.exists_settled hcut (.inl rfl)
  exact String.toList_inj.mp ((hstays table').unique (qualifies_qualify hm hcut' hsettled))

/-! ### Prices of items -/

def itemModel : Model where
  name := "Item"
  table := "items"
  attributes := [
    { name := "id", column := "id", type := .integer, nullable := false, primaryKey := true
      computed := none },
    { name := "cost", column := "price", type := .decimal, nullable := true, primaryKey := false
      computed := none }]
  associations := []

def priceText : String := "price*2 || 'price''s' || t.price::price || price (1) || \"price\"price"

def qualifiedPriceText : String := "\"a\"\"b\".\"price\"*2 || 'price''s' || t.price::price || " ++
  "price (1) || \"price\"\"a\"\"b\".\"price\""

theorem qualify_priceText : qualify itemModel "a\"b" priceText = qualifiedPriceText := by
  decide +kernel

theorem priceText_qualified : PlainColumns itemModel ∧ Balanced priceText.toList ∧
    (∃ segments, textOf segments = priceText.toList ∧ Cut segments ∧
      Qualifies itemModel "a\"b" [] segments qualifiedPriceText.toList) ∧
    ∀ table, qualify itemModel table qualifiedPriceText = qualifiedPriceText := by
  have hm : PlainColumns itemModel := by decide
  have hbalanced : Balanced priceText.toList := by decide +kernel
  obtain ⟨⟨segments, htext, hcut⟩, hqualifies, hagain⟩ := qualify_exact hm hbalanced
  rw [← qualify_priceText]
  exact ⟨hm, hbalanced, ⟨segments, htext, hcut, hqualifies segments htext hcut _⟩, hagain _⟩

end RelQuery.Computed
