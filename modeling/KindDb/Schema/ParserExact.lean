import KindDb.Schema.Grammar

/-! # The parser accepts exactly its grammar

For every function of the parser: it reads the tokens of a phrase, whatever
follows, and what it reads are the tokens of a phrase.  A turn of a loop also
reads the comma after its item, and leaves a closing brace. -/
set_option autoImplicit false

namespace KindDb.Schema

open KindDb.Lib

/-! ## Data types -/

theorem namedDataType_eq (id : String) :
    namedDataType id = (builtinTypes.lookup id).getD (.custom id) := by
  unfold namedDataType
  split
  case h_9 =>
    have absent : builtinTypes.lookup id = none := by
      rw [List.lookup_eq_none_iff]
      simp only [builtinTypes, List.mem_cons, List.not_mem_nil, or_false, forall_eq_or_imp, forall_eq,
        bne_iff_ne, ne_eq]
      refine ⟨?_, ?_, ?_, ?_, ?_, ?_, ?_, ?_⟩ <;> assumption
    rw [absent]
    rfl
  all_goals rfl

theorem parseDataType_tokens (p : DataTypePhrase) (rest : Tokens) :
    parseDataType (p.tokens ++ rest) = .ok (p.dataType, rest) := by
  induction p generalizing rest with
  | named id =>
      have read : parseDataType (.identifier id :: rest) = .ok (namedDataType id, rest) := by
        simp [parseDataType, expectIdentifier, bind, Except.bind, pure, Except.pure]
      rw [namedDataType_eq] at read
      exact read
  | array inner ih =>
      rw [DataTypePhrase.tokens, List.cons_append, List.append_assoc, parseDataType, ih]
      rfl

theorem tokens_of_parseDataType {tokens rest : Tokens} {dataType : DataType}
    (read : parseDataType tokens = .ok (dataType, rest)) :
    ∃ p : DataTypePhrase, p.dataType = dataType ∧ tokens = p.tokens ++ rest := by
  fun_induction parseDataType tokens generalizing dataType rest with
  | case1 left ih =>
      obtain ⟨⟨inner, afterInner⟩, readInner, read⟩ := bind_ok read
      obtain ⟨afterBracket, bracket, read⟩ := bind_ok read
      cases read
      obtain ⟨p, rfl, rfl⟩ := ih readInner
      rw [suffix_matchToken bracket]
      exact ⟨.array p, rfl, by simp [DataTypePhrase.tokens]⟩
  | case2 tokens _ =>
      obtain ⟨⟨id, afterName⟩, named, read⟩ := bind_ok read
      cases read
      exact ⟨.named id, (namedDataType_eq id).symm, suffix_expectIdentifier named⟩

/-! ## Turns and loops -/

/-- What is left after an item: the turn passes a comma and stops at a brace. -/
inductive Separates : Tokens → Tokens → Prop
  | comma (rest : Tokens) : Separates (.comma :: rest) rest
  | brace (rest : Tokens) : Separates (.rBrace :: rest) (.rBrace :: rest)

theorem separator_ok {tokens rest : Tokens} :
    separator tokens = .ok rest ↔ Separates tokens rest := by
  constructor
  · intro read
    unfold separator at read
    split at read
    · cases read
      exact .comma rest
    · cases read
      exact .brace _
    · cases read
  · intro separates
    cases separates with
    | comma => rfl
    | brace => rfl

variable {α β : Type}

/-- A turn reads the words of an item and what separates it from the next. -/
structure Reader.Reads (r : Reader α) (word : β → Tokens) (value : β → α) : Prop where
  complete : ∀ (b : β) {after rest : Tokens}, Separates after rest →
    r.read (word b ++ after) = .ok (value b, rest)
  sound : ∀ {tokens : Tokens} {a : α} {rest : Tokens}, r.read tokens = .ok (a, rest) →
    ∃ b after, value b = a ∧ tokens = word b ++ after ∧ Separates after rest

theorem indexedMark_tokens (tokens : Tokens) :
    tokens = (if (indexedMark tokens).1 then [.atIndexed] else []) ++ (indexedMark tokens).2 := by
  unfold indexedMark
  split <;> rfl

theorem fieldReader_reads : fieldReader.Reads FieldPhrase.tokens FieldPhrase.fieldDef := by
  refine ⟨?_, ?_⟩
  · rintro ⟨isIndexed, name, type⟩ after rest separates
    have separated := separator_ok.mpr separates
    cases isIndexed
    all_goals
      simp only [fieldReader, FieldPhrase.tokens, parseField, indexedMark, expectIdentifier,
        matchToken, List.cons_append, List.nil_append, bind, Except.bind, if_true,
        parseDataType_tokens, separated, Bool.false_eq_true, if_false]
      rfl
  · intro tokens fieldDef rest read
    obtain ⟨⟨name, afterName⟩, named, read⟩ := bind_ok read
    obtain ⟨afterColon, colon, read⟩ := bind_ok read
    obtain ⟨⟨dataType, afterType⟩, typed, read⟩ := bind_ok read
    obtain ⟨afterTurn, separated, read⟩ := bind_ok read
    cases read
    obtain ⟨p, rfl, rfl⟩ := tokens_of_parseDataType typed
    have named : expectIdentifier (indexedMark tokens).2 = .ok (name, afterName) := named
    refine ⟨⟨(indexedMark tokens).1, name, p⟩, afterType, rfl, ?_, separator_ok.mp separated⟩
    refine (indexedMark_tokens tokens).trans ?_
    rw [suffix_expectIdentifier named, suffix_matchToken colon]
    simp [FieldPhrase.tokens]

theorem variantReader_reads : variantReader.Reads variantTokens id := by
  refine ⟨?_, ?_⟩
  · intro variant after rest separates
    have separated := separator_ok.mpr separates
    simp only [variantReader, variantTokens, parseVariant, expectIdentifier, List.cons_append,
      List.nil_append, bind, Except.bind, separated]
    rfl
  · intro tokens variant rest read
    obtain ⟨⟨name, afterName⟩, named, read⟩ := bind_ok read
    obtain ⟨afterTurn, separated, read⟩ := bind_ok read
    cases read
    exact ⟨variant, afterName, rfl, suffix_expectIdentifier named, separator_ok.mp separated⟩

namespace Reader

variable {r : Reader α} {word : β → Tokens} {value : β → α}

theorem untilRBrace_closed (rest : Tokens) :
    r.untilRBrace (.rBrace :: rest) = .ok ([], .rBrace :: rest) := by
  rw [untilRBrace]
  exact if_pos rfl

theorem untilRBrace_turn {tokens rest left : Tokens} {a : α} {as : List α}
    (goesOn : tokens.head? ≠ some .rBrace) (first : r.read tokens = .ok (a, rest))
    (later : r.untilRBrace rest = .ok (as, left)) : r.untilRBrace tokens = .ok (a :: as, left) := by
  rw [untilRBrace, if_neg goesOn]
  split
  · rename_i failed
    rw [first] at failed
    cases failed
  · rename_i read
    rw [first] at read
    cases read
    rw [later]
    rfl

theorem head_of_begins (begins : Separated.Begins .comma .rBrace word) (b : β) (after : Tokens) :
    (word b ++ after).head? ≠ some .rBrace := by
  obtain ⟨first, left, starts, _, notClose⟩ := begins b
  rw [starts]
  simpa using notClose

/-- The loop reads the items up to the brace. -/
theorem untilRBrace_words (reads : r.Reads word value)
    (begins : Separated.Begins .comma .rBrace word) (items : Separated β) (rest : Tokens) :
    r.untilRBrace (items.yield .comma word ++ .rBrace :: rest) =
      .ok (items.toList.map value, .rBrace :: rest) := by
  cases items with
  | none => exact untilRBrace_closed rest
  | some first more trailing =>
      rw [Separated.yield, List.append_assoc]
      have goesOn := head_of_begins begins first
        (Separated.tail .comma word more trailing ++ .rBrace :: rest)
      induction more generalizing first with
      | nil =>
          refine untilRBrace_turn goesOn (reads.complete first ?_) (untilRBrace_closed rest)
          cases trailing with
          | true => exact .comma (.rBrace :: rest)
          | false => exact .brace rest
      | cons next more ih =>
          refine untilRBrace_turn goesOn (reads.complete first ?_)
            (ih next (head_of_begins begins next _))
          rw [Separated.tail_cons, List.cons_append, List.cons_append, List.append_assoc]
          exact .comma _

/-- What the loop reads are items, and it stops at a brace. -/
theorem words_of_untilRBrace (reads : r.Reads word value)
    (begins : Separated.Begins .comma .rBrace word) {tokens rest : Tokens} {as : List α}
    (read : r.untilRBrace tokens = .ok (as, rest)) :
    ∃ items : Separated β, items.toList.map value = as ∧
      tokens = items.yield .comma word ++ rest ∧ rest.head? = some .rBrace := by
  fun_induction untilRBrace r tokens generalizing as rest with
  | case1 tokens closed =>
      cases read
      exact ⟨.none, rfl, rfl, closed⟩
  | case2 => cases read
  | case3 tokens _ a left first ih =>
      obtain ⟨⟨later, afterLater⟩, readLater, read⟩ := bind_ok read
      cases read
      obtain ⟨items, rfl, inside, closed⟩ := ih readLater
      obtain ⟨b, after, rfl, rfl, separates⟩ := reads.sound first
      cases separates with
      | comma =>
          refine ⟨.cons b items, by simp, ?_, closed⟩
          rw [Separated.yield_cons, inside]
          simp
      | brace left =>
          -- the brace ends the loop, so no item follows
          cases items with
          | none =>
              refine ⟨.some b [] false, rfl, ?_, closed⟩
              simp [inside, Separated.yield, Separated.tail]
          | some next more trailing =>
              have starts := head_of_begins begins next
                (Separated.tail .comma word more trailing ++ rest)
              rw [Separated.yield, List.append_assoc] at inside
              rw [← inside] at starts
              exact absurd rfl starts

end Reader

/-! ## Declarations -/

theorem parseBody_words {r : Reader α} {word : β → Tokens} {value : β → α}
    (reads : r.Reads word value) (begins : Separated.Begins .comma .rBrace word) (name : String)
    (items : Separated β) (rest : Tokens) :
    parseBody r (.identifier name :: .lBrace :: (items.yield .comma word ++ .rBrace :: rest)) =
      .ok ((name, items.toList.map value), rest) := by
  unfold parseBody
  simp only [expectIdentifier, matchToken, bind, Except.bind, if_true,
    Reader.untilRBrace_words reads begins]
  rfl

theorem words_of_parseBody {r : Reader α} {word : β → Tokens} {value : β → α}
    (reads : r.Reads word value) (begins : Separated.Begins .comma .rBrace word)
    {tokens rest : Tokens} {name : String} {as : List α}
    (read : parseBody r tokens = .ok ((name, as), rest)) :
    ∃ items : Separated β, items.toList.map value = as ∧
      tokens = .identifier name :: .lBrace :: (items.yield .comma word ++ .rBrace :: rest) := by
  obtain ⟨⟨id, afterName⟩, readName, read⟩ := bind_ok read
  obtain ⟨afterOpened, opened, read⟩ := bind_ok read
  obtain ⟨⟨as', afterItems⟩, readItems, read⟩ := bind_ok read
  obtain ⟨afterClosed, closed, read⟩ := bind_ok read
  cases read
  obtain ⟨items, same, inside, _⟩ := Reader.words_of_untilRBrace reads begins readItems
  refine ⟨items, same, ?_⟩
  rw [suffix_expectIdentifier readName, suffix_matchToken opened, inside, suffix_matchToken closed]

theorem parsePrefix_words (keyPrefix : Option String) {rest : Tokens}
    (other : rest.head? ≠ some .atPrefix) :
    parsePrefix (prefixTokens keyPrefix ++ rest) = .ok (keyPrefix, rest) := by
  cases keyPrefix with
  | some s =>
      simp only [prefixTokens, List.cons_append, List.nil_append, parsePrefix, matchToken, bind,
        Except.bind, if_true]
      rfl
  | none =>
      unfold parsePrefix
      split
      · rename_i same
        rw [show rest = _ from same] at other
        exact absurd rfl other
      · rfl

theorem words_of_parsePrefix {tokens rest : Tokens} {keyPrefix : Option String}
    (read : parsePrefix tokens = .ok (keyPrefix, rest)) :
    tokens = prefixTokens keyPrefix ++ rest := by
  rcases parsePrefix_ok read with ⟨s, rfl, words⟩ | ⟨rfl, words⟩
  · exact words
  · exact words

theorem parseNode_tokens (p : NodePhrase) (rest : Tokens) :
    parseNode (p.tokens ++ rest) = .ok (p.node, rest) := by
  obtain ⟨keyPrefix, name, body⟩ := p
  cases body with
  | type fields =>
      have declared := parseBody_words fieldReader_reads FieldPhrase.begins name fields rest
      simp only [NodePhrase.tokens, BodyPhrase.keyword, BodyPhrase.tokens, List.append_assoc,
        List.cons_append, List.nil_append, parseNode, bind, Except.bind]
      rw [parsePrefix_words keyPrefix (by simp)]
      simp only [parseDeclaration, bind, Except.bind, declared]
      rfl
  | enum variants =>
      have declared := parseBody_words variantReader_reads variantTokens_begins name variants rest
      simp only [NodePhrase.tokens, BodyPhrase.keyword, BodyPhrase.tokens, List.append_assoc,
        List.cons_append, List.nil_append, parseNode, bind, Except.bind]
      rw [parsePrefix_words keyPrefix (by simp)]
      simp only [parseDeclaration, bind, Except.bind, declared, List.map_id]
      rfl

theorem tokens_of_parseNode {tokens rest : Tokens} {node : SchemaNode}
    (read : parseNode tokens = .ok (node, rest)) :
    ∃ p : NodePhrase, p.node = node ∧ tokens = p.tokens ++ rest := by
  obtain ⟨⟨keyPrefix, after⟩, prefixed, read⟩ := bind_ok read
  rw [words_of_parsePrefix prefixed]
  dsimp only at read
  unfold parseDeclaration at read
  split at read
  · obtain ⟨⟨⟨name, fields⟩, afterBody⟩, body, read⟩ := bind_ok read
    cases read
    obtain ⟨items, rfl, rfl⟩ := words_of_parseBody fieldReader_reads FieldPhrase.begins body
    exact ⟨⟨keyPrefix, name, .type items⟩, rfl,
      by simp [NodePhrase.tokens, BodyPhrase.keyword, BodyPhrase.tokens]⟩
  · obtain ⟨⟨⟨name, variants⟩, afterBody⟩, body, read⟩ := bind_ok read
    cases read
    obtain ⟨items, rfl, rfl⟩ := words_of_parseBody variantReader_reads variantTokens_begins body
    exact ⟨⟨keyPrefix, name, .enum items⟩, by simp [NodePhrase.node],
      by simp [NodePhrase.tokens, BodyPhrase.keyword, BodyPhrase.tokens]⟩
  · cases read

theorem NodePhrase.tokens_ne_nil (p : NodePhrase) : p.tokens ≠ [] := by
  unfold tokens
  exact List.append_ne_nil_of_right_ne_nil _ (List.cons_ne_nil _ _)

theorem parse_tokens (phrases : List NodePhrase) :
    parse (phrases.flatMap NodePhrase.tokens) = .ok (phrases.map NodePhrase.node) := by
  unfold parse
  induction phrases with
  | nil => rw [List.flatMap_nil, Reader.untilEnd, if_pos rfl, List.map_nil]
  | cons p phrases ih =>
      rw [List.flatMap_cons, List.map_cons, Reader.untilEnd,
        if_neg (List.append_ne_nil_of_left_ne_nil p.tokens_ne_nil _)]
      have first : nodeReader.read (p.tokens ++ phrases.flatMap NodePhrase.tokens) = _ :=
        parseNode_tokens p (phrases.flatMap NodePhrase.tokens)
      split
      · rename_i failed
        rw [first] at failed
        cases failed
      · rename_i read
        rw [first] at read
        cases read
        rw [ih]
        rfl

theorem tokens_of_parse {tokens : Tokens} {nodes : List SchemaNode}
    (read : parse tokens = .ok nodes) : ∃ phrases : List NodePhrase,
      phrases.map NodePhrase.node = nodes ∧ phrases.flatMap NodePhrase.tokens = tokens := by
  unfold parse at read
  fun_induction Reader.untilEnd nodeReader tokens generalizing nodes with
  | case1 =>
      cases read
      exact ⟨[], rfl, rfl⟩
  | case2 => cases read
  | case3 tokens _ node left first ih =>
      obtain ⟨later, readLater, read⟩ := bind_ok read
      cases read
      obtain ⟨p, rfl, rfl⟩ := tokens_of_parseNode first
      obtain ⟨phrases, rfl, rfl⟩ := ih readLater
      exact ⟨p :: phrases, rfl, rfl⟩

/-- A token list is derivable as a list of nodes. -/
def Derives (tokens : Tokens) (nodes : List SchemaNode) : Prop :=
  ∃ phrases : List NodePhrase, phrases.flatMap NodePhrase.tokens = tokens ∧
    phrases.map NodePhrase.node = nodes

/-- The parser returns the nodes of a derivation if there is one and an error if
there is none, and there is at most one. -/
theorem parse_exact (tokens : Tokens) :
    (∀ nodes, parse tokens = .ok nodes ↔ Derives tokens nodes) ∧
    ((∀ nodes, ¬ Derives tokens nodes) → ∃ e, parse tokens = .error e) ∧
    ∀ phrases phrases' : List NodePhrase, phrases.flatMap NodePhrase.tokens = tokens →
      phrases'.flatMap NodePhrase.tokens = tokens → phrases = phrases' := by
  have exact_ : ∀ nodes, parse tokens = .ok nodes ↔ Derives tokens nodes := by
    intro nodes
    constructor
    · intro read
      obtain ⟨phrases, same, yields⟩ := tokens_of_parse read
      exact ⟨phrases, yields, same⟩
    · rintro ⟨phrases, rfl, rfl⟩
      exact parse_tokens phrases
  refine ⟨exact_, fun none => ?_, fun phrases phrases' yields yields' => ?_⟩
  · cases parsed : parse tokens with
    | error e => exact ⟨e, rfl⟩
    | ok nodes => exact absurd ((exact_ nodes).mp parsed) (none nodes)
  · exact NodePhrase.unique.sequence NodePhrase.tokens_ne_nil (yields.trans yields'.symm)

end KindDb.Schema
