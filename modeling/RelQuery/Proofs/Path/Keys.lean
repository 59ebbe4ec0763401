import Mathlib.Data.List.Infix
import RelQuery.Path

/-!
# Path keys

A key is a path if it is cut somewhere, at `__` or `!!`, and no segment is empty. It is cut at its
leftmost separator first, and then what follows is cut: two passes, one for each separator, come to
the same. Joining the segments gives the key back, and a joined key is cut into its segments again
if no segment but the last ends in a character of a separator.
-/

namespace RelQuery.Path

variable {sep c : Char} {t cs : List Char} {key : String} {path : Key}

/-! ## Doubled separators -/

theorem splitDoubled_ne_nil : splitDoubled sep cs ≠ [] := by
  unfold splitDoubled
  split
  · nofun
  · nofun
  · split
    · nofun
    · split <;> nofun

/-- A text has several parts exactly if it has a doubled separator. -/
theorem one_lt_length_splitDoubled :
    1 < (splitDoubled sep cs).length ↔ [sep, sep] <:+: cs := by
  induction cs using splitDoubled.induct sep with
  | case1 => simp [splitDoubled]
  | case2 c => simp [splitDoubled, List.infix_cons_iff]
  | case3 c d cs h ih =>
    obtain ⟨rfl, rfl⟩ := h
    have hpos : 0 < (splitDoubled d cs).length := List.length_pos_of_ne_nil splitDoubled_ne_nil
    simp only [splitDoubled, and_self, if_true, List.length_cons]
    exact ⟨fun _ => ⟨[], cs, rfl⟩, fun _ => by omega⟩
  | case4 c d cs h part parts heq ih =>
    have hno : ¬[sep, sep] <+: c :: d :: cs := by
      rw [List.cons_prefix_cons, List.cons_prefix_cons]
      exact fun hp => h ⟨hp.1.symm, hp.2.1.symm⟩
    rw [heq] at ih
    simp only [splitDoubled, h, if_false, heq]
    rw [List.infix_cons_iff, ← ih]
    exact ⟨.inr, fun hp => hp.resolve_left hno⟩
  | case5 c d cs h heq => exact (splitDoubled_ne_nil heq).elim

theorem splitDoubled_eq_singleton (h : ¬[sep, sep] <:+: cs) : splitDoubled sep cs = [cs] := by
  induction cs using splitDoubled.induct sep with
  | case1 => rfl
  | case2 c => rfl
  | case3 c d cs hsep ih =>
    obtain ⟨rfl, rfl⟩ := hsep
    exact (h ⟨[], cs, rfl⟩).elim
  | case4 c d cs hsep part parts heq ih =>
    rw [ih fun hi => h (List.infix_cons_iff.mpr (.inr hi))] at heq
    cases heq
    rw [splitDoubled, if_neg hsep, ih fun hi => h (List.infix_cons_iff.mpr (.inr hi))]
  | case5 c d cs hsep heq => exact (splitDoubled_ne_nil heq).elim

theorem mem_of_doubled_infix (h : [sep, sep] <:+: c :: cs) : sep ∈ cs := by
  rcases List.infix_cons_iff.mp h with h | h
  · obtain ⟨-, h⟩ := List.cons_prefix_cons.mp h
    exact h.mem List.mem_cons_self
  · exact h.mem List.mem_cons_self

/-- A doubled separator in a longer text that ends at the last character, or before it. -/
theorem doubled_infix_concat : [sep, sep] <:+: t ++ [c] ↔
    [sep, sep] <:+: t ∨ t.getLast? = some sep ∧ c = sep := by
  have hend : [sep, sep] <:+ t ++ [c] ↔ t.getLast? = some sep ∧ c = sep := by
    rw [List.suffix_concat_iff, List.getLast?_eq_some_iff]
    constructor
    · rintro (h | ⟨u, hu, v, rfl⟩)
      · cases h
      · have hu : [sep] ++ [sep] = u ++ [c] := hu
        obtain ⟨rfl, hc⟩ := List.append_inj' hu rfl
        cases hc
        exact ⟨⟨v, rfl⟩, rfl⟩
    · rintro ⟨⟨v, rfl⟩, rfl⟩
      exact .inr ⟨[c], rfl, v, rfl⟩
  rw [List.infix_concat_iff, hend, or_comm]

theorem splitDoubled_cons (h : ¬[sep, sep] <+: c :: cs) :
    splitDoubled sep (c :: cs) = (splitDoubled sep cs).modifyHead (c :: ·) := by
  cases cs with
  | nil => rfl
  | cons d cs =>
    have hsep : ¬(c = sep ∧ d = sep) := by
      rintro ⟨rfl, rfl⟩
      exact h ⟨cs, rfl⟩
    rw [splitDoubled, if_neg hsep]
    cases hparts : splitDoubled sep (d :: cs) with
    | nil => exact (splitDoubled_ne_nil hparts).elim
    | cons part parts => rfl

/-- A text without the separator that does not end in half of it stays in front of the first
part. -/
theorem splitDoubled_append (h : ¬[sep, sep] <:+: t ++ [sep]) (cs : List Char) :
    splitDoubled sep (t ++ cs) = (splitDoubled sep cs).modifyHead (t ++ ·) := by
  induction t with
  | nil => exact (congrFun List.modifyHead_id _).symm
  | cons c t ih =>
    have hno : ¬[sep, sep] <+: c :: (t ++ cs) := by
      intro hp
      obtain ⟨rfl, hrest⟩ := List.cons_prefix_cons.mp hp
      cases t with
      | nil => exact h List.infix_rfl
      | cons d t =>
        obtain ⟨rfl, -⟩ := List.cons_prefix_cons.mp hrest
        exact h ⟨[], t ++ [sep], rfl⟩
    rw [List.cons_append, splitDoubled_cons hno,
      ih fun hi => h (List.infix_cons_iff.mpr (.inr hi)), List.modifyHead_modifyHead]
    rfl

/-- The leftmost separator ends the first part. -/
theorem splitDoubled_leftmost (h : ¬[sep, sep] <:+: t ++ [sep]) (cs : List Char) :
    splitDoubled sep (t ++ sep :: sep :: cs) = t :: splitDoubled sep cs := by
  rw [splitDoubled_append h, splitDoubled, if_pos ⟨rfl, rfl⟩, List.modifyHead_cons,
    List.append_nil]

/-- A path key is negated exactly if it holds `!!`. -/
theorem Key.negated_iff (h : Key.parse? key = some path) :
    path.negated = true ↔ ['!', '!'] <:+: key.toList := by
  unfold Key.parse? at h
  dsimp only at h
  split at h
  · cases h
  · cases h
    rw [decide_eq_true_iff, one_lt_length_splitDoubled]

/-- A path key holds a doubled separator. -/
theorem Key.doubled_of_parse (h : Key.parse? key = some path) :
    ∃ sep ∈ ['!', '_'], [sep, sep] <:+: key.toList := by
  by_contra hno
  simp only [List.mem_cons, List.not_mem_nil, or_false, exists_eq_or_imp, exists_eq_left,
    not_or] at hno
  simp [Key.parse?, splitDoubled_eq_singleton hno.1, splitDoubled_eq_singleton hno.2] at h

/-! ## Segments -/

/-- What stands between two segments of a key. -/
inductive Separator
  | hop
  | negation
  deriving DecidableEq

namespace Separator

def mark : Separator → Char
  | .hop => '_'
  | .negation => '!'

def text (s : Separator) : List Char := [s.mark, s.mark]

end Separator

/-- Texts with separators between them. -/
structure Segments where
  first : List Char
  rest : List (Separator × List Char)

namespace Segments

def texts (g : Segments) : List (List Char) := g.first :: g.rest.map (·.2)

def separators (g : Segments) : List Separator := g.rest.map (·.1)

/-- The texts as one, with the separators between them. -/
def joined (g : Segments) : List Char := g.first ++ g.rest.flatMap fun e => e.1.text ++ e.2

/-- The path key with these segments. -/
def parsed (g : Segments) : Key := ⟨g.texts.map String.ofList, decide (.negation ∈ g.separators)⟩

/-- Segments with the same texts that are joined to the same have the same separators. -/
theorem ext_joined {g g' : Segments} (htexts : g.texts = g'.texts)
    (hjoined : g.joined = g'.joined) : g = g' := by
  obtain ⟨first, rest⟩ := g
  obtain ⟨first', rest'⟩ := g'
  simp only [texts, List.cons.injEq] at htexts
  obtain ⟨rfl, htexts⟩ := htexts
  replace hjoined := List.append_cancel_left hjoined
  congr 1
  induction rest generalizing rest' with
  | nil => exact (List.map_eq_nil_iff.mp htexts.symm).symm
  | cons e rest ih =>
    cases rest' with
    | nil => cases htexts
    | cons e' rest' =>
      obtain ⟨s, t⟩ := e
      obtain ⟨s', t'⟩ := e'
      obtain ⟨rfl, hrest⟩ := List.cons.inj htexts
      simp only [List.flatMap_cons, Separator.text, List.cons_append, List.cons.injEq] at hjoined
      obtain ⟨hmark, -, hjoined⟩ := hjoined
      rw [ih _ hrest (List.append_cancel_left hjoined)]
      cases s <;> cases s' <;> first | rfl | cases hmark

end Segments

/-- A text without a separator. -/
def Uncut (t : List Char) : Prop := ∀ s : Separator, ¬s.text <:+: t

instance : Decidable (Uncut t) :=
  decidable_of_iff (¬Separator.hop.text <:+: t ∧ ¬Separator.negation.text <:+: t)
    ⟨fun h s => by cases s; exacts [h.1, h.2], fun h => ⟨h .hop, h .negation⟩⟩

/-- A text cut at its leftmost separator, and so on in what follows. -/
inductive Cut : List Char → Segments → Prop
  | whole {t : List Char} : Uncut t → Cut t ⟨t, []⟩
  | after {t rest : List Char} {s : Separator} {g : Segments} : Uncut (t ++ [s.mark]) →
      Cut rest g → Cut (t ++ (s.text ++ rest)) ⟨t, (s, g.first) :: g.rest⟩

variable {s : Separator} {g : Segments} {text : List Char}

theorem Uncut.of_append (h : Uncut (t ++ cs)) : Uncut t :=
  fun s hs => h s (hs.trans (List.prefix_append t cs).isInfix)

theorem Uncut.cons (h : Uncut cs) (hc : ∀ s : Separator, ¬s.text <+: c :: cs) : Uncut (c :: cs) :=
  fun s hs => (List.infix_cons_iff.mp hs).elim (hc s) (h s)

/-- A text has no separator, or a leftmost one. -/
theorem uncut_or_leftmost (text : List Char) : Uncut text ∨
    ∃ t s rest, text = t ++ (Separator.text s ++ rest) ∧ Uncut (t ++ [s.mark]) := by
  induction text with
  | nil => exact .inl fun s hs => by cases List.infix_nil.mp hs
  | cons c text ih =>
    by_cases hstart : ∃ s : Separator, s.text <+: c :: text
    · obtain ⟨s, rest, hrest⟩ := hstart
      refine .inr ⟨[], s, rest, hrest.symm, fun s' hs' => ?_⟩
      have hlength := hs'.length_le
      simp [Separator.text] at hlength
    · rw [not_exists] at hstart
      obtain huncut | ⟨t, s, rest, rfl, huncut⟩ := ih
      · exact .inl (huncut.cons hstart)
      · refine .inr ⟨c :: t, s, rest, rfl, huncut.cons fun s' hs' => hstart s' (hs'.trans ?_)⟩
        exact ⟨s.mark :: rest, by simp [Separator.text]⟩

theorem exists_cut (text : List Char) : ∃ g, Cut text g := by
  induction hn : text.length using Nat.strong_induction_on generalizing text with
  | _ n ih =>
    obtain huncut | ⟨t, s, rest, rfl, huncut⟩ := uncut_or_leftmost text
    · exact ⟨_, .whole huncut⟩
    · obtain ⟨g, hg⟩ := ih rest.length (by simp [Separator.text] at hn; omega) rest rfl
      exact ⟨_, .after huncut hg⟩

namespace Cut

theorem joined_eq (h : Cut text g) : g.joined = text := by
  induction h with
  | whole => simp [Segments.joined]
  | after _ _ ih => rw [← ih]; simp [Segments.joined]

theorem uncut (h : Cut text g) : ∀ t ∈ g.texts, Uncut t := by
  induction h with
  | whole h => simpa [Segments.texts] using h
  | after h _ ih => exact List.forall_mem_cons.mpr ⟨h.of_append, ih⟩

/-- A text holds a separator exactly if it is cut. -/
theorem rest_ne_nil_iff (h : Cut text g) :
    g.rest ≠ [] ↔ ∃ s : Separator, s.text <:+: text := by
  cases h with
  | whole h => simpa [Uncut] using h
  | @after t rest s g _ _ => exact iff_of_true nofun ⟨s, t, rest, by simp⟩

/-- The parts between `!!`, each cut at `__`, are the segments. -/
theorem passes (h : Cut text g) :
    (splitDoubled '!' text).flatMap (splitDoubled '_') = g.texts ∧
      (1 < (splitDoubled '!' text).length ↔ .negation ∈ g.separators) := by
  induction h with
  | @whole t h =>
    have hnegation : ¬['!', '!'] <:+: t := h .negation
    have hhop : ¬['_', '_'] <:+: t := h .hop
    simp [splitDoubled_eq_singleton hnegation, splitDoubled_eq_singleton hhop, Segments.texts,
      Segments.separators]
  | @after t rest s g h _ ih =>
    have hparts : splitDoubled '!' rest ≠ [] := splitDoubled_ne_nil
    cases s with
    | negation =>
      have hsplit : splitDoubled '!' (t ++ '!' :: '!' :: rest) = t :: splitDoubled '!' rest :=
        splitDoubled_leftmost (h .negation) rest
      have ht : splitDoubled '_' t = [t] := splitDoubled_eq_singleton (h.of_append .hop)
      change (splitDoubled '!' (t ++ '!' :: '!' :: rest)).flatMap _ = t :: g.texts ∧
        (1 < (splitDoubled '!' (t ++ '!' :: '!' :: rest)).length ↔ _ ∈ .negation :: g.separators)
      rw [hsplit, List.flatMap_cons, ht, ih.1]
      simpa using List.length_pos_iff.mpr hparts
    | hop =>
      have hnegation : ¬['!', '!'] <:+: t ++ ['_'] ++ ['_'] ++ ['!'] := by
        have hmark : ¬['!', '!'] <:+: t ++ ['_'] := h .negation
        simp only [doubled_infix_concat, hmark, List.getLast?_concat]
        decide
      obtain ⟨part, parts, hparts⟩ := List.exists_cons_of_ne_nil hparts
      have hsplit : splitDoubled '!' (t ++ '_' :: '_' :: rest) =
          (t ++ '_' :: '_' :: part) :: parts := by
        have happend := splitDoubled_append hnegation rest
        rw [hparts] at happend
        simpa using happend
      have ht : splitDoubled '_' (t ++ '_' :: '_' :: part) = t :: splitDoubled '_' part :=
        splitDoubled_leftmost (h .hop) part
      rw [hparts] at ih
      change (splitDoubled '!' (t ++ '_' :: '_' :: rest)).flatMap _ = t :: g.texts ∧
        (1 < (splitDoubled '!' (t ++ '_' :: '_' :: rest)).length ↔ _ ∈ .hop :: g.separators)
      rw [hsplit, List.flatMap_cons, ht, ← ih.1]
      simpa using ih.2

/-- There is one way to cut a text. -/
theorem unique {g' : Segments} (h : Cut text g) (h' : Cut text g') : g' = g :=
  Segments.ext_joined (h'.passes.1.symm.trans h.passes.1) (h'.joined_eq.trans h.joined_eq.symm)

end Cut

theorem Uncut.concat (h : Uncut t) (hlast : t.getLast? ≠ some s.mark) : Uncut (t ++ [s.mark]) := by
  intro s' hs'
  obtain hs' | ⟨hend, hmark⟩ := doubled_infix_concat.mp hs'
  · exact h s' hs'
  · exact hlast (hmark ▸ hend)

/-- What is joined is cut where it was joined, unless a segment before the last one ends in half of
a separator. -/
theorem cut_joined (huncut : ∀ t ∈ g.texts, Uncut t)
    (hlast : ∀ t ∈ g.texts.dropLast, ∀ s : Separator, t.getLast? ≠ some s.mark) :
    Cut g.joined g := by
  obtain ⟨first, rest⟩ := g
  induction rest generalizing first with
  | nil =>
    have hfirst := huncut first List.mem_cons_self
    simpa [Segments.joined] using Cut.whole hfirst
  | cons e rest ih =>
    obtain ⟨s, t⟩ := e
    simp only [Segments.texts, List.map_cons, List.dropLast_cons_cons, List.forall_mem_cons] at *
    have hrest : Cut (Segments.joined ⟨t, rest⟩) ⟨t, rest⟩ := ih t huncut.2 hlast.2
    simpa [Segments.joined] using Cut.after (huncut.1.concat (hlast.1 s)) hrest

/-- A key is a path exactly if it is cut and no segment is empty. -/
theorem Key.parse?_eq_some_iff (h : Cut key.toList g) :
    Key.parse? key = some path ↔ g.rest ≠ [] ∧ [] ∉ g.texts ∧ path = g.parsed := by
  obtain ⟨htexts, hnegated⟩ := h.passes
  have hlength : g.texts.length ≤ 1 ↔ g.rest = [] := by
    simp [Segments.texts]
  have hempty : g.texts.any (·.isEmpty) = true ↔ [] ∈ g.texts := by simp
  simp only [Key.parse?, htexts, hlength, hempty, hnegated]
  split
  · rename_i hnone
    refine iff_of_false nofun fun h => hnone.elim h.1 h.2.1
  · rename_i hsome
    rw [not_or] at hsome
    rw [Option.some.injEq, eq_comm]
    exact ⟨fun h => ⟨hsome.1, hsome.2, h⟩, fun h => h.2.2⟩

/-- A key is a path exactly if it holds a separator and is cut, leftmost first, without an empty
segment; the segments are its tokens, and it is negated exactly if one of the separators between
them is `!!`. Tokens without separators of which none but the last ends in a character of one are
the tokens of the key that they are joined to. -/
theorem keys_split_uniquely :
    (∀ key : String, ∃ g, Cut key.toList g ∧ (∀ g', Cut key.toList g' → g' = g) ∧
      g.joined = key.toList ∧
      ((Key.parse? key).isSome ↔ (∃ s : Separator, s.text <:+: key.toList) ∧ [] ∉ g.texts) ∧
      ∀ path, Key.parse? key = some path →
        path.tokens = g.texts.map String.ofList ∧ 2 ≤ path.tokens.length ∧
        (∀ t ∈ path.tokens, t ≠ "" ∧ Uncut t.toList) ∧
        (path.negated = true ↔ .negation ∈ g.separators)) ∧
    ∀ g : Segments, g.rest ≠ [] → (∀ t ∈ g.texts, t ≠ [] ∧ Uncut t) →
      (∀ t ∈ g.texts.dropLast, t.getLast? ≠ some '_' ∧ t.getLast? ≠ some '!') →
      Key.parse? (String.ofList g.joined) =
        some ⟨g.texts.map String.ofList, decide (.negation ∈ g.separators)⟩ := by
  constructor
  · intro key
    obtain ⟨g, hcut⟩ := exists_cut key.toList
    refine ⟨g, hcut, fun g' => hcut.unique, hcut.joined_eq, ?_, fun path hpath => ?_⟩
    · rw [← hcut.rest_ne_nil_iff, Option.isSome_iff_exists]
      simp only [Key.parse?_eq_some_iff hcut]
      exact ⟨fun ⟨_, hrest, hempty, _⟩ => ⟨hrest, hempty⟩,
        fun ⟨hrest, hempty⟩ => ⟨_, hrest, hempty, rfl⟩⟩
    · obtain ⟨hrest, hempty, rfl⟩ := (Key.parse?_eq_some_iff hcut).mp hpath
      refine ⟨rfl, ?_, fun t ht => ?_, decide_eq_true_iff⟩
      · have hpos := List.length_pos_iff.mpr hrest
        simp [Segments.parsed, Segments.texts]
        omega
      · obtain ⟨u, hu, rfl⟩ := List.mem_map.mp ht
        have hne : u ≠ [] := ne_of_mem_of_not_mem hu hempty
        rw [String.toList_ofList]
        exact ⟨fun heq => hne (String.ofList_eq_empty_iff.mp heq), hcut.uncut u hu⟩
  · intro g hrest htexts hlast
    have hcut : Cut g.joined g := cut_joined (fun t ht => (htexts t ht).2) fun t ht s => by
      cases s with
      | hop => exact (hlast t ht).1
      | negation => exact (hlast t ht).2
    rw [← String.toList_ofList (l := g.joined)] at hcut
    exact (Key.parse?_eq_some_iff hcut).mpr ⟨hrest, fun hempty => (htexts _ hempty).1 rfl, rfl⟩

/-- A segment may start with half of a separator. -/
theorem tripled_hop_parsed : Key.parse? "items!!product___sku" =
    some ⟨["items", "product", "_sku"], true⟩ :=
  keys_split_uniquely.2
    ⟨"items".toList, [(.negation, "product".toList), (.hop, "_sku".toList)]⟩ (by decide)
    (by decide) (by decide)

/-- If it ends in one, the half goes to the next segment. -/
example : Segments.joined ⟨"items_".toList, [(.hop, "sku".toList)]⟩ = "items___sku".toList ∧
    Key.parse? "items___sku" = some ⟨["items", "_sku"], false⟩ := by decide

end RelQuery.Path
