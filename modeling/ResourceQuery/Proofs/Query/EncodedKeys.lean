import Mathlib.Data.List.Forall2
import ResourceQuery.Proofs.Query.CompositeKey
import ResourceQuery.Proofs.Query.KeyLookup

set_option autoImplicit false

/-!
# Query: keys that are encoded, quoted and read

An encoded key that is written in quotes as the argument of a key term comes
back as its components.  On the way the quotes are escaped, the query string is
divided, and the escapes of the fragment are undone, which takes the backslash
before a comma away and leaves the other escapes of the key as they are.  That a
comma stands alone then changes nothing, for it is an ordinary character of a
key.

Each layer has its own reserved characters.  `Sealed` is what encoding leaves
and what the other layers need: no character of a key can be taken for one of
theirs.
-/

namespace ResourceQuery

namespace CompositeKey

/-! ## Encoded keys as texts -/

/-- Every backslash stands before a reserved character and takes it with it, and
no `*` stands by itself. -/
inductive Sealed : List Char → Prop where
  | nil : Sealed []
  | plain {c : Char} {cs : List Char} (hback : c ≠ '\\') (hstar : c ≠ '*') (h : Sealed cs) :
      Sealed (c :: cs)
  | pair {c : Char} {cs : List Char} (hc : isReserved c = true) (h : Sealed cs) :
      Sealed ('\\' :: c :: cs)

theorem sealed_encodePart (cs : List Char) {rest : List Char} (h : Sealed rest) :
    Sealed (encodePart cs ++ rest) := by
  induction cs with
  | nil => exact h
  | cons c cs ih =>
    rw [encodePart_cons, List.append_assoc]
    cases hreserved : isReserved c with
    | true => exact .pair hreserved ih
    | false =>
      simp only [isReserved, Bool.or_eq_false_iff, beq_eq_false_iff_ne] at hreserved
      exact .plain hreserved.1.2 hreserved.2 ih

theorem sealed_encodeChars (parts : List (List Char)) : Sealed (encodeChars parts) := by
  induction parts with
  | nil => exact .nil
  | cons part parts ih =>
    cases parts with
    | nil =>
      have hlast := sealed_encodePart part .nil
      rwa [List.append_nil] at hlast
    | cons next parts => exact sealed_encodePart part (.plain (by decide) (by decide) ih)

theorem eq_of_isReserved {c : Char} (h : isReserved c = true) :
    c = '~' ∨ c = ',' ∨ c = '\\' ∨ c = '*' := by
  simpa [isReserved, or_assoc] using h

theorem Sealed.quotable (q : Quote) {cs : List Char} (h : Sealed cs) : Token.Quotable q cs := by
  induction h with
  | nil => exact .nil
  | plain hback _ _ ih => exact .plain hback ih
  | pair hc _ ih =>
    rcases eq_of_isReserved hc with rfl | rfl | rfl | rfl
    all_goals exact .pair (by decide) (by cases q <;> decide) ih

/-- A key has the same components once the escapes of the fragment are undone. -/
theorem Sealed.components?_unescape {cs : List Char} (h : Sealed cs) :
    components? (Token.unescape cs) = components? cs := by
  induction h with
  | nil => rfl
  | @plain c cs hback hstar _ ih =>
    rw [Token.unescape_plain hback]
    by_cases hdivider : c = '~'
    · subst hdivider
      rw [components?_separator, components?_separator, ih]
    · rw [components?_plain hback hstar hdivider, components?_plain hback hstar hdivider, ih]
  | @pair c cs hc _ ih =>
    by_cases hcomma : c = ','
    · subst hcomma
      rw [Token.unescape_structural (by decide), components?_escape,
        components?_plain (by decide) (by decide) (by decide), ih]
    · have hkept : Token.isStructural c = false := by
        rcases eq_of_isReserved hc with rfl | rfl | rfl | rfl
        · decide
        · exact absurd rfl hcomma
        · decide
        · decide
      rw [Token.unescape_pair hkept, components?_escape, components?_escape, ih]

end CompositeKey

/-! ## The text of a key term -/

/-- A letter or a digit of ASCII. -/
def Text.isAlphanumeric (c : Char) : Bool :=
  ('0' ≤ c && c ≤ '9') || ('A' ≤ c && c ≤ 'Z') || ('a' ≤ c && c ≤ 'z')

namespace Text

variable {c : Char}

theorem toNat_of_isAlphanumeric (h : isAlphanumeric c = true) :
    48 ≤ c.toNat ∧ c.toNat ≤ 122 := by
  simp only [isAlphanumeric, Bool.or_eq_true, Bool.and_eq_true, decide_eq_true_eq] at h
  rcases h with (⟨hlow, hhigh⟩ | ⟨hlow, hhigh⟩) | ⟨hlow, hhigh⟩
  · have hlow : 48 ≤ c.toNat := hlow
    have hhigh : c.toNat ≤ 57 := hhigh
    omega
  · have hlow : 65 ≤ c.toNat := hlow
    have hhigh : c.toNat ≤ 90 := hhigh
    omega
  · have hlow : 97 ≤ c.toNat := hlow
    have hhigh : c.toNat ≤ 122 := hhigh
    omega

theorem not_structural_of_isAlphanumeric (h : isAlphanumeric c = true) :
    Token.isStructural c = false ∧ (c ≠ '\\' ∧ c ≠ '&') ∧ c ≠ '\n' := by
  have hne : ∀ d, isAlphanumeric d = false → c ≠ d := by
    rintro d hd rfl
    rw [h] at hd
    cases hd
  have hrange := toNat_of_isAlphanumeric h
  have hblank : isBlank c = false := by
    simp only [isBlank, blankRanges, List.any_cons, List.any_nil, Bool.or_false,
      Bool.or_eq_false_iff, Bool.and_eq_false_iff, decide_eq_false_iff_not]
    omega
  refine ⟨?_, ⟨hne _ (by decide), hne _ (by decide)⟩, hne _ (by decide)⟩
  simp only [Token.isStructural, hblank, Bool.or_false, Bool.or_eq_false_iff, beq_eq_false_iff_ne]
  exact ⟨⟨⟨⟨⟨hne _ (by decide), hne _ (by decide)⟩, hne _ (by decide)⟩, hne _ (by decide)⟩,
    hne _ (by decide)⟩, hne _ (by decide)⟩

theorem toLower_ne_of_isAlphanumeric (h : isAlphanumeric c = true) : c.toLower ≠ '_' := by
  have hall : ((List.range 123).all fun n =>
      !isAlphanumeric (Char.ofNat n) || (Char.ofNat n).toLower != '_') = true := by decide +kernel
  have hc := List.all_eq_true.1 hall c.toNat
    (List.mem_range.2 (Nat.lt_succ_of_le (toNat_of_isAlphanumeric h).2))
  rw [Char.ofNat_toNat, h] at hc
  simpa using hc

/-- A name of letters and digits is not the word of a key term. -/
theorem sameWord_key_of_isAlphanumeric {name : String} (h : name.toList.all isAlphanumeric = true) :
    sameWord name "_key" = false := by
  rw [Bool.eq_false_iff]
  intro hsame
  have hchars : name.toList.map Char.toLower = (lower "_key").toList := by
    rw [← (sameWord_iff _ _).1 hsame, lower, String.toList_ofList]
  have hmem : '_' ∈ name.toList.map Char.toLower := by
    rw [hchars]
    decide
  obtain ⟨c, hc, hlower⟩ := List.mem_map.1 hmem
  exact toLower_ne_of_isAlphanumeric (List.all_eq_true.1 h c hc) hlower

end Text

namespace Fragment

/-- The word has characters, and all of them stand for themselves. -/
structure PlainWord (word : String) : Prop where
  written : Term.writeWord word none = word.toList
  proper : Token.Proper word none
  crosses : Crosses none word.toList none

theorem plainWord {word : String} (hne : word.toList ≠ [])
    (hplain : (word.toList.all fun c => !Token.isStructural c) = true)
    (hsafe : (word.toList.all fun c => c != '\\' && c != '&' && c != '\n') = true) :
    PlainWord word := by
  obtain ⟨hproper, hunbroken⟩ := safe_word word hne hsafe
  have hwritten : Term.writeBare word.toList = word.toList := by
    refine Term.writeBare_plain hne fun c hc => ?_
    simpa using List.all_eq_true.1 hplain c hc
  refine ⟨hwritten, hproper, ?_⟩
  have hcrosses := crosses_writeBare hproper.1 hunbroken
  rwa [hwritten] at hcrosses

/-- Letters and digits stand for themselves everywhere. -/
theorem plainWord_of_isAlphanumeric {word : String} (hne : word ≠ "")
    (h : word.toList.all Text.isAlphanumeric = true) : PlainWord word := by
  have hchars := fun c hc => Text.not_structural_of_isAlphanumeric (List.all_eq_true.1 h c hc)
  refine plainWord (fun hnil => hne (String.toList_inj.1 hnil)) ?_ ?_
  · simpa using fun c hc => (hchars c hc).1
  · simpa using fun c hc => (hchars c hc).2

theorem plainWord_key : PlainWord "_key" := plainWord (by decide) (by decide) (by decide)

/-- A key term for the index of the name, with the encoded components in quotes. -/
def keyText (name : String) (parts : List String) : String :=
  "_key(" ++ name ++ "," ++
    String.ofList (Term.writeQuoted .double (CompositeKey.encode parts).toList) ++ ")"

/-- The key as it is read, with the escapes of the fragment undone. -/
def readKey (parts : List String) : String :=
  String.ofList (Token.unescape (CompositeKey.encode parts).toList)

/-- The term that the text writes. -/
def keyTerm (name : String) (parts : List String) : Term :=
  .call "_key" [.word name, .leaf (readKey parts) (some .double)]

variable {name : String} {parts : List String}

theorem toList_keyText (name : String) (parts : List String) : (keyText name parts).toList =
    "_key".toList ++ '(' :: (name.toList ++ ',' ::
      (Term.writeQuoted .double (CompositeKey.encode parts).toList ++ [')'])) := by
  simp only [keyText, String.toList_append, String.toList_ofList, List.append_assoc]
  rfl

theorem quotable_encode (parts : List String) :
    Token.Quotable .double (CompositeKey.encode parts).toList := by
  rw [CompositeKey.encode, String.toList_ofList]
  exact (CompositeKey.sealed_encodeChars _).quotable .double

/-- The text of a key term is read as the key term. -/
theorem parse_keyText (hname : PlainWord name) :
    parse (keyText name parts) = .ok (keyTerm name parts) := by
  have hend : Token.Spells 1 none [')'] [.closing] := .closing .nil
  have hkey := Token.Spells.comma (hend.writeQuoted (quotable_encode parts))
  have hindex := Token.Spells.opening (hkey.word (.inr (.inr (.inl rfl))) hname.proper)
  have hall := hindex.word (.inl rfl) plainWord_key.proper
  rw [hname.written, plainWord_key.written, ← toList_keyText] at hall
  obtain ⟨tokens, htokens, hkinds⟩ := Token.tokenize_of_spells hall
  refine (parse_eq_ok_iff_sentence _ _).2 ⟨tokens, htokens,
    .term (.call "_key" [.text name none, .text (readKey parts) (some .double)]), hkinds, ?_⟩
  rfl

/-- The text of a key term is one fragment. -/
theorem split_keyText (hname : PlainWord name) :
    split (keyText name parts) = [keyText name parts] := by
  have hquoted := crosses_writeQuoted (quotable_encode parts)
  have hargs := hname.crosses.append (crosses_mark (.inr (.inr rfl))
    (hquoted.append (crosses_mark (.inr (.inl rfl)) (.nil none))))
  have hcrosses := plainWord_key.crosses.append (crosses_mark (.inl rfl) hargs)
  rw [← toList_keyText] at hcrosses
  have htrimmed : Trimmed (keyText name parts).toList := by
    rw [toList_keyText]
    refine ⟨by simp, fun c hc => ?_, fun c hc => ?_⟩
    · cases hc
      decide
    · simp only [← List.cons_append, ← List.append_assoc] at hc
      rw [List.getLast?_concat] at hc
      cases hc
      decide
  have hsplit := split_join fun text htext => by
    rw [List.mem_singleton.1 htext]
    exact ⟨hcrosses, htrimmed⟩
  rwa [String.intercalate_singleton] at hsplit

end Fragment

/-! ## The query -/

theorem CompositeKey.decode_readKey {parts : List String} (hne : parts ≠ [])
    (hparts : ∀ part ∈ parts, part ≠ "") (index : String) :
    decode index (Fragment.readKey parts) parts.length = .ok parts := by
  refine decode_of_components ?_ hparts index
  rw [Fragment.readKey, String.toList_ofList, encode, String.toList_ofList,
    (sealed_encodeChars _).components?_unescape,
    components?_encodeChars fun hnil => hne (List.map_eq_nil_iff.1 hnil)]

theorem Collection.keyProperties_of_columns {c : Collection} {index : Index} {ps : List Property}
    (hne : ps ≠ [])
    (h : List.Forall₂ (fun column p => c.property? column = some p) index.columns ps) :
    c.keyProperties index = .ok ps := by
  have hall : ∀ {columns : List String} {ps : List Property},
      List.Forall₂ (fun column p => c.property? column = some p) columns ps →
      columns.mapM (c.keyProperty index) = .ok ps := by
    intro columns ps h
    induction h with
    | nil => rfl
    | @cons column p columns ps hp _ ih =>
      have hproperty : c.keyProperty index column = .ok p := by
        unfold keyProperty
        rw [hp]
      exact mapM_cons_ok_iff.2 ⟨p, ps, hproperty, ih, rfl⟩
  have hcolumns : index.columns ≠ [] := fun hnil => by
    rw [hnil] at h
    cases h
    exact hne rfl
  rw [keyProperties, if_neg hcolumns, hall h]

namespace Query

open Fragment (PlainWord keyText keyTerm readKey)

variable {c : Collection} {name : String} {parts : List String}

theorem lifted_keyTerm (name : String) (parts : List String) :
    (keyTerm name parts).lifted = keyTerm name parts := by
  have hword : Text.sameWord "_key" "eq" = false := by decide +kernel
  have hsets : (keyTerm name parts).setsParameter = false := by
    rw [Term.setsParameter, keyTerm, Term.hasToken, Term.call, Term.token_node, hword]
    rfl
  rw [Term.lifted, hsets]
  rfl

/-- The only key term is the whole. -/
theorem keyTerms_keyTerm (hname : Text.sameWord name "_key" = false) :
    Condition.keyTerms (keyTerm name parts) = [keyTerm name parts] := by
  have hindex : (Term.word name).hasToken "_key" = false := hname
  have hkey : (Term.leaf (readKey parts) (some .double)).hasToken "_key" = false := rfl
  have hroot : (keyTerm name parts).hasToken "_key" = true := Text.sameWord_refl "_key"
  have hleaf : ∀ token quote, (Term.leaf token quote).subterms = [.leaf token quote] := by
    intro token quote
    rw [Term.subterms_eq]
    rfl
  have hsubterms : (keyTerm name parts).subterms =
      [keyTerm name parts, .word name, .leaf (readKey parts) (some .double)] := by
    have hchildren : (keyTerm name parts).children =
        [.leaf name none, .leaf (readKey parts) (some .double)] := rfl
    rw [Term.subterms_eq, hchildren, List.flatMap_cons, List.flatMap_singleton, hleaf, hleaf]
    rfl
  rw [Condition.keyTerms, hsubterms]
  simp only [List.filter_cons, hroot, hindex, hkey, List.filter_nil]
  rfl

/-- What the text of a key contributes to a query. -/
theorem fragmentContribution_keyText {ps : List Property} (hname : PlainWord name)
    (hword : Text.sameWord name "_key" = false)
    (h : KeyLookup c (keyTerm name parts) (.word name) (.leaf (readKey parts) (some .double)) ps
      parts) :
    fragmentContribution c (keyText name parts) =
      .ok (Clause.filter.gives (Condition.equations ps parts (some .double))) := by
  have howner : (Clause.owner? (keyTerm name parts).token).filter
      (fun _ => !(keyTerm name parts).isQuoted) = some .filter := by
    show (Clause.owner? "_key").filter (fun _ => true) = some .filter
    decide +kernel
  refine bind_eq_ok_iff.2 ⟨keyTerm name parts, Fragment.parse_keyText hname, ?_⟩
  rw [contribution, lifted_keyTerm, howner]
  show filterShare c (keyTerm name parts) = _
  rw [filterShare, Condition.contribution, keyTerms_keyTerm hword, h.normalForm_eq]
  have hnone : List.mapM (Condition.keyComparisons c) [] = .ok [] := rfl
  have hkeys := mapM_cons_ok_iff.2 ⟨_, [], h.keyComparisons_eq, hnone, rfl⟩
  exact map_eq_ok_iff.2 ⟨_, map_eq_ok_iff.2 ⟨_, hkeys, rfl⟩, rfl⟩

/-- A key whose components are any texts at all, once it is encoded, written in
quotes and read as a query, compares each column of the index with its component
as it was, in quotes. -/
theorem ofString_keyText (c : Collection) (name : String) (index : Index) (ps : List Property)
    (parts : List String) (hname : name ≠ "") (hword : name.toList.all Text.isAlphanumeric = true)
    (hfound : c.index? name = some index) (hunique : index.isUnique = true)
    (hcolumns : List.Forall₂ (fun column p => c.property? column = some p) index.columns ps)
    (hsome : 1 ≤ ps.length) (hlength : parts.length = ps.length)
    (hparts : ∀ part ∈ parts, part ≠ "") :
    ∃ q, ofString c (keyText name parts) = .ok q ∧
      q.terms .filter = List.zipWith (fun p part =>
        .call "eq" [.word p.name, .leaf part (some .double)]) ps parts ∧
      ∀ kind, kind ≠ .filter → q.terms kind = [] := by
  have hplain := Fragment.plainWord_of_isAlphanumeric hname hword
  have hne : parts ≠ [] := List.ne_nil_of_length_pos (hlength ▸ hsome)
  have hlookup : KeyLookup c (keyTerm name parts) (.word name)
      (.leaf (readKey parts) (some .double)) ps parts := by
    refine ⟨Text.sameWord_refl "_key", rfl, ⟨index, ?_, hunique, ?_⟩, ?_⟩
    · show c.index name = .ok index
      rw [Collection.index, hfound]
    · exact Collection.keyProperties_of_columns (List.ne_nil_of_length_pos hsome) hcolumns
    · rw [← hlength]
      exact CompositeKey.decode_readKey hne hparts name
  have hshare := fragmentContribution_keyText hplain (Text.sameWord_key_of_isAlphanumeric hword)
    hlookup
  have hshares : (Fragment.split (keyText name parts)).mapM (fragmentContribution c) =
      .ok [Clause.filter.gives (Condition.equations ps parts (some .double))] := by
    rw [Fragment.split_keyText hplain]
    exact mapM_cons_ok_iff.2 ⟨_, [], hshare, rfl, rfl⟩
  obtain ⟨q, hq, hterms⟩ := exists_ofString hshares
  refine ⟨q, hq, ?_, fun kind hkind => ?_⟩
  · rw [hterms, List.flatMap_singleton, Clause.gives, if_pos rfl, Condition.equations,
      List.zipWith_map]
    rfl
  · rw [hterms, List.flatMap_singleton, Clause.gives, if_neg hkind]

/-- Components with all the characters that one of the layers takes for its own. -/
def knottedParts : List String := ["a&'b\"(~,*1234\\", "\\\n null ), "]

theorem ofString_keyText_knotted : ∃ q, ofString things (keyText "BYID" knottedParts) = .ok q ∧
    (keyText "BYID" knottedParts) =
      "_key(BYID,\"a&'b\\\"(\\~\\,\\*1234\\\\~\\\\\n null )\\, \")" ∧
    q.terms .filter = [
      .call "eq" [.word "type", .leaf "a&'b\"(~,*1234\\" (some .double)],
      .call "eq" [.word "id", .leaf "\\\n null ), " (some .double)]] ∧
    ∀ kind, kind ≠ .filter → q.terms kind = [] := by
  obtain ⟨q, hq, hfilter, hothers⟩ := ofString_keyText things "BYID"
    ⟨"byId", .primary, ["type", "id"]⟩ (things.properties.take 2) knottedParts (by decide)
    (by decide) (by decide +kernel) (by decide) (.cons rfl (.cons rfl .nil)) (by decide) rfl
    (by decide)
  exact ⟨q, hq, by decide +kernel, hfilter, hothers⟩

end Query
end ResourceQuery
