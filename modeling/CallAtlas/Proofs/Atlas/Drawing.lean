import CallAtlas.Atlas.Dot

/-! # Drawings are read back

The part of the DOT language that drawings are written in has a reader. It finds in each drawing one
statement for each node and edge that the prune list leaves, in order and with the exact labels. So
a name can hold any bytes and still shows in its own label only.
-/
namespace CallAtlas.Dot

/-! ### Words -/

/-- A word of the language. An identifier may be written between quotes, where it holds any bytes
and is never a keyword. -/
inductive Word where
  | keyword (name : Bytes)
  | id (name : Bytes)
  | openBrace | closeBrace | openBracket | closeBracket | equals | semicolon | arrow
  deriving DecidableEq, Repr

/-- The keywords of the language, which count in either case. -/
def keywords : List Bytes :=
  [text "digraph", text "edge", text "graph", text "node", text "strict", text "subgraph"]

def toLower (b : UInt8) : UInt8 := if Bytes.isUpper b then b + 32 else b

def bareWord (name : Bytes) : Word :=
  let lower := name.map toLower
  if keywords.contains lower then .keyword lower else .id name

def signs : List (UInt8 × Word) :=
  [('\x7b', .openBrace), ('\x7d', .closeBrace), ('[', .openBracket), (']', .closeBracket),
    ('=', .equals), (';', .semicolon)]

/-- What stands up to the closing quote, and what follows it. Only a quote or a backslash may stand
behind a backslash. -/
def unquote (behindBackslash : Bool) : Bytes → Option (Bytes × Bytes)
  | [] => none
  | b :: bs =>
    if behindBackslash then
      if b = '"' || b = '\\' then (unquote false bs).map fun (label, rest) => (b :: label, rest)
      else none
    else if b = '"' then some ([], bs)
    else if b = '\\' then unquote true bs
    else (unquote false bs).map fun (label, rest) => (b :: label, rest)

/-- The word that starts with a byte, and what follows it. -/
def word? (b : UInt8) (bs : Bytes) : Option (Word × Bytes) :=
  if b = '"' then (unquote false bs).map fun (label, rest) => (.id label, rest)
  else if isIdentifierByte b then
    if Bytes.isDigit b then none
    else some (bareWord (b :: bs.takeWhile isIdentifierByte), bs.dropWhile isIdentifierByte)
  else if b = '-' then
    if bs.head? = some ('>' : UInt8) then some (.arrow, bs.tail) else none
  else (signs.lookup b).map (·, bs)

theorem unquote_length {behindBackslash : Bool} {bs label rest : Bytes}
    (h : unquote behindBackslash bs = some (label, rest)) : rest.length ≤ bs.length := by
  induction bs generalizing behindBackslash label with
  | nil => cases h
  | cons b bs ih =>
    have decoded (h : (unquote false bs).map (fun (label, rest) => (b :: label, rest)) =
        some (label, rest)) : rest.length ≤ (b :: bs).length := by
      simp only [Option.map_eq_some_iff, Prod.mk.injEq, Prod.exists] at h
      obtain ⟨label, _, read, -, rfl⟩ := h
      exact Nat.le_succ_of_le (ih read)
    rw [unquote] at h
    split at h
    · split at h
      · exact decoded h
      · cases h
    split at h
    · cases h
      exact Nat.le_succ _
    split at h
    · exact Nat.le_succ_of_le (ih h)
    · exact decoded h

theorem word?_length {b : UInt8} {bs rest : Bytes} {w : Word} (h : word? b bs = some (w, rest)) :
    rest.length ≤ bs.length := by
  unfold word? at h
  split at h
  · simp only [Option.map_eq_some_iff, Prod.mk.injEq, Prod.exists] at h
    obtain ⟨label, _, read, -, rfl⟩ := h
    exact unquote_length read
  split at h
  · split at h
    · cases h
    · cases h
      exact (List.dropWhile_sublist _).length_le
  split at h
  · split at h
    · cases h
      simp
    · cases h
  · simp only [Option.map_eq_some_iff, Prod.mk.injEq] at h
    obtain ⟨_, -, -, rfl⟩ := h
    exact Nat.le_refl _

/-- The words of a text, with blanks and line feeds between them. -/
def words (bs : Bytes) : Option (List Word) :=
  match bs with
  | [] => some []
  | b :: bs =>
    if b = ' ' || b = '\n' then words bs
    else
      match _h : word? b bs with
      | none => none
      | some (w, rest) => (words rest).map (w :: ·)
termination_by bs.length
decreasing_by
  · simp
  · have shorter := word?_length (by assumption)
    simp only [List.length_cons]
    omega

/-! ### Statements -/

/-- A statement as it is read: a setting of the graph, or a node or an edge with its property. -/
inductive Drawn where
  | setting (key value : Bytes)
  | node (id : Bytes) (property : Bytes × Bytes)
  | edge (source target : Bytes) (property : Option (Bytes × Bytes))
  deriving DecidableEq, Repr

/-- The identifiers of the nodes that a statement is about. -/
def Drawn.nodes : Drawn → List Bytes
  | setting _ _ => []
  | node id _ => [id]
  | edge source target _ => [source, target]

/-- A graph as it is read. -/
structure Drawing where
  title : Bytes
  statements : List Drawn
  deriving DecidableEq, Repr

/-- The statements up to the brace that ends the text. -/
def statements : List Word → Option (List Drawn)
  | [.closeBrace] => some []
  | .id key :: .equals :: .id value :: .semicolon :: more =>
    (statements more).map (.setting key value :: ·)
  | .id node :: .openBracket :: .id key :: .equals :: .id value :: .closeBracket :: .semicolon ::
      more => (statements more).map (.node node (key, value) :: ·)
  | .id source :: .arrow :: .id target :: .semicolon :: more =>
    (statements more).map (.edge source target none :: ·)
  | .id source :: .arrow :: .id target :: .openBracket :: .id key :: .equals :: .id value ::
      .closeBracket :: .semicolon :: more =>
    (statements more).map (.edge source target (some (key, value)) :: ·)
  | _ => none

/-- Reads the text of a directed graph. -/
def read? (bs : Bytes) : Option Drawing := do
  match ← words bs with
  | .keyword kind :: .id title :: .openBrace :: more =>
    if kind = text "digraph" then
      return ⟨title, ← statements more⟩
    else none
  | _ => none

/-! ### Reading what is written -/

/-- Whether a name may end in front of a text. -/
def Breaks (t : Bytes) : Prop := t.head?.all fun b => !isIdentifierByte b

instance (t : Bytes) : Decidable (Breaks t) := inferInstanceAs (Decidable (_ = true))

theorem breaks_append {s : Bytes} (some : s ≠ []) (h : Breaks s) (t : Bytes) : Breaks (s ++ t) := by
  cases s with
  | nil => exact absurd rfl some
  | cons b s => exact h

/-- A text that is read as an identifier, whatever follows it. -/
def Spells (shown name : Bytes) : Prop :=
  ∀ (t : Bytes) (ws : List Word), Breaks t → words t = some ws →
    words (shown ++ t) = some (.id name :: ws)

/-- A word without quotes, which may be a keyword. -/
def IsBare (name : Bytes) : Prop :=
  name ≠ [] ∧ name.head?.all (fun b => !Bytes.isDigit b) ∧ name.all isIdentifierByte

instance (name : Bytes) : Decidable (IsBare name) := inferInstanceAs (Decidable (_ ∧ _ ∧ _))

/-- A name that needs no quotes. -/
def IsName (name : Bytes) : Prop := IsBare name ∧ ¬ keywords.contains (name.map toLower)

instance (name : Bytes) : Decidable (IsName name) := inferInstanceAs (Decidable (_ ∧ _))

section Words

variable {t : Bytes} {ws : List Word}

theorem words_gap {b : UInt8} (gap : b = ' ' ∨ b = '\n') : words (b :: t) = words t := by
  rw [words, if_pos (by simpa using gap)]

theorem words_word {b : UInt8} {bs : Bytes} {w : Word} (solid : ¬ (b = ' ' ∨ b = '\n'))
    (read : word? b bs = some (w, t)) (h : words t = some ws) :
    words (b :: bs) = some (w :: ws) := by
  rw [words, if_neg (by simpa using solid)]
  split
  · rename_i none
    rw [none] at read
    cases read
  · rename_i w' rest some
    rw [some] at read
    cases read
    rw [h, Option.map_some]

theorem words_sign {b : UInt8} {w : Word} (sign : (b, w) ∈ signs) (h : words t = some ws) :
    words (b :: t) = some (w :: ws) := by
  have own : ∀ entry ∈ signs, ¬ (entry.1 = ' ' ∨ entry.1 = '\n') ∧ entry.1 ≠ '"' ∧
      isIdentifierByte entry.1 = false ∧ entry.1 ≠ '-' ∧ signs.lookup entry.1 = some entry.2 := by
    decide
  obtain ⟨solid, quote, plain, dash, found⟩ := own _ sign
  refine words_word solid ?_ h
  rw [word?, if_neg quote, plain, if_neg Bool.false_ne_true, if_neg dash, found]
  rfl

theorem words_arrow (h : words t = some ws) : words ('-' :: '>' :: t) = some (.arrow :: ws) :=
  words_word (by decide) rfl h

theorem words_bare {name : Bytes} (bare : IsBare name) (breaks : Breaks t) (h : words t = some ws) :
    words (name ++ t) = some (bareWord name :: ws) := by
  obtain ⟨some, letter, plain⟩ := bare
  cases name with
  | nil => exact absurd rfl some
  | cons b name =>
    obtain ⟨start, rest⟩ := List.forall_mem_cons.mp (List.all_eq_true.mp plain)
    have letter : Bytes.isDigit b = false := by simpa using letter
    have run : (name ++ t).takeWhile isIdentifierByte = name ∧
        (name ++ t).dropWhile isIdentifierByte = t := by
      rw [List.takeWhile_append_of_pos rest, List.dropWhile_append_of_pos rest]
      cases t with
      | nil => simp
      | cons c t =>
        have stop : isIdentifierByte c = false := by simpa [Breaks] using breaks
        simp [stop]
    have gap : ∀ c : UInt8, c = ' ' ∨ c = '\n' → ¬ isIdentifierByte c := by
      rintro c (rfl | rfl) <;> decide
    have quote : b ≠ '"' := by
      rintro rfl
      exact absurd start (by decide)
    refine words_word (fun blank => gap b blank start) ?_ h
    change word? b (name ++ t) = _
    rw [word?, if_neg quote, if_pos start, if_neg (by simp [letter]), run.1, run.2]

end Words

theorem spells_name {name : Bytes} (h : IsName name) : Spells name name := by
  intro t ws breaks read
  have free : bareWord name = .id name := if_neg h.2
  rw [words_bare h.1 breaks read, free]

theorem unquote_escape (label t : Bytes) :
    unquote false (label.flatMap escape ++ ('"' : UInt8) :: t) = some (label, t) := by
  induction label with
  | nil => rfl
  | cons b label ih =>
    rw [List.flatMap_cons, escape]
    by_cases special : (b = '"' || b = '\\') = true
    · rw [if_pos special]
      simp only [List.cons_append, List.nil_append]
      rw [unquote, if_neg Bool.false_ne_true, if_neg (by decide), if_pos rfl, unquote, if_pos rfl,
        if_pos special, ih]
      rfl
    · rw [if_neg special]
      simp only [Bool.or_eq_true, decide_eq_true_eq, not_or] at special
      simp only [List.cons_append, List.nil_append]
      rw [unquote, if_neg Bool.false_ne_true, if_neg special.1, if_neg special.2, ih]
      rfl

theorem spells_quoted (label : Bytes) : Spells (quoted label) label := by
  intro t ws _ h
  have mark : text "\"" = [('"' : UInt8)] := by decide
  have quotes : quoted label ++ t = ('"' : UInt8) :: (label.flatMap escape ++ ('"' : UInt8) :: t) :=
    by simp [quoted, mark]
  rw [quotes]
  refine words_word (by decide) ?_ h
  rw [word?, if_pos rfl, unquote_escape]
  rfl

/-! ### Lines -/

/-- The words of a property in brackets. -/
def bracketed (property : Bytes × Bytes) : List Word :=
  [.openBracket, .id property.1, .equals, .id property.2, .closeBracket]

/-- The words of a statement. -/
def Drawn.words : Drawn → List Word
  | setting key value => [.id key, .equals, .id value, .semicolon]
  | node id property => .id id :: (bracketed property ++ [.semicolon])
  | edge source target property =>
    .id source :: .arrow :: .id target :: (property.elim [] bracketed ++ [.semicolon])

theorem statements_words (d : Drawn) (ws : List Word) :
    statements (d.words ++ ws) = (statements ws).map (d :: ·) := by
  cases d with
  | setting | node => simp [Drawn.words, bracketed, statements]
  | edge source target property => cases property <;> simp [Drawn.words, bracketed, statements]

theorem statements_flatMap (ds : List Drawn) :
    statements (ds.flatMap Drawn.words ++ [.closeBrace]) = some ds := by
  induction ds with
  | nil => simp [statements]
  | cons d ds ih =>
    rw [List.flatMap_cons, List.append_assoc, statements_words, ih]
    rfl

/-- A text that is read as a list of statements, whatever follows it. -/
def Shows (shown : Bytes) (ds : List Drawn) : Prop :=
  ∀ (t : Bytes) (ws : List Word), words t = some ws →
    words (shown ++ t) = some (ds.flatMap Drawn.words ++ ws)

theorem Shows.append {shown shown' : Bytes} {ds ds' : List Drawn} (h : Shows shown ds)
    (h' : Shows shown' ds') : Shows (shown ++ shown') (ds ++ ds') := by
  intro t ws read
  rw [List.append_assoc, List.flatMap_append, List.append_assoc]
  exact h _ _ (h' _ _ read)

/-- The lines of the items that are kept show the statements of the items that are left. -/
theorem shows_filter_map {α : Type} {f : α → Statement} {g : α → Drawn} {kept left : α → Bool}
    (same : ∀ x, kept x = left x) (h : ∀ x, Shows (f x).line [g x]) (xs : List α) :
    Shows (((xs.filter kept).map f).flatMap Statement.line) ((xs.filter left).map g) := by
  rw [funext same]
  induction xs.filter left with
  | nil => exact fun _ _ read => read
  | cons x xs ih => exact Shows.append (h x) ih

section Lines

variable {shown key value : Bytes}

theorem words_bracketed {t : Bytes} {ws : List Word} (name : IsName key)
    (spelled : Spells shown value) (h : words t = some ws) :
    words (text " [" ++ (key ++ (text "=" ++ (shown ++ (text "]" ++ t))))) =
      some (bracketed (key, value) ++ ws) := by
  -- The words are read from the last one on, as a name ends only where the next word begins.
  have ending : words (text "]" ++ t) = some (.closeBracket :: ws) := words_sign (by decide) h
  have behind := spelled _ _ (breaks_append (by decide) (by decide) t) ending
  have assigned : words (text "=" ++ (shown ++ (text "]" ++ t))) = some (.equals :: _) :=
    words_sign (by decide) behind
  have inside := spells_name name _ _ (breaks_append (by decide) (by decide) _) assigned
  exact (words_gap (.inl rfl)).trans (words_sign (by decide) inside)

theorem words_indented (t : Bytes) : words (text "  " ++ t) = words t :=
  (words_gap (.inl rfl)).trans (words_gap (.inl rfl))

theorem words_ended {t : Bytes} {ws : List Word} (h : words t = some ws) :
    words (text ";\n" ++ t) = some (.semicolon :: ws) :=
  words_sign (by decide) ((words_gap (.inr rfl)).trans h)

theorem shows_setting (name : IsName key) (spelled : Spells shown value) :
    Shows (text "  " ++ key ++ text "=" ++ shown ++ text ";\n") [.setting key value] := by
  intro t ws h
  have behind := spelled _ _ (breaks_append (by decide) (by decide) t) (words_ended h)
  have assigned : words (text "=" ++ (shown ++ (text ";\n" ++ t))) = some (.equals :: _) :=
    words_sign (by decide) behind
  have whole := spells_name name _ _ (breaks_append (by decide) (by decide) _) assigned
  simpa [words_indented, Drawn.words] using whole

theorem shows_node {id : Bytes} (name : IsName id) (label : Bytes) :
    Shows (Statement.node id label).line [.node id (text "label", label)] := by
  intro t ws h
  have key : IsName (text "label") := by decide
  have property := words_bracketed key (spells_quoted label) (words_ended h)
  have whole := spells_name name _ _ (breaks_append (by decide) (by decide) _) property
  have start : text " [label=" = text " [" ++ (text "label" ++ text "=") := by decide
  have ending : text "];\n" = text "]" ++ text ";\n" := by decide
  simpa [Statement.line, start, ending, words_indented, Drawn.words] using whole

section Edges

variable {source target : Bytes} (start : IsName source) (finish : IsName target)

include start finish

theorem words_linked {t : Bytes} {ws : List Word} (breaks : Breaks t) (h : words t = some ws) :
    words (source ++ (text " -> " ++ (target ++ t))) =
      some (.id source :: .arrow :: .id target :: ws) := by
  have behind : words (text " " ++ (target ++ t)) = some (.id target :: ws) :=
    (words_gap (.inl rfl)).trans (spells_name finish _ _ breaks h)
  have linked : words (text " -> " ++ (target ++ t)) = some (.arrow :: .id target :: ws) :=
    (words_gap (.inl rfl)).trans (words_arrow behind)
  exact spells_name start _ _ (breaks_append (by decide) (by decide) _) linked

theorem shows_edge :
    Shows (Statement.edge source target []).line [.edge source target none] := by
  intro t ws h
  have whole := words_linked start finish (breaks_append (by decide) (by decide) t) (words_ended h)
  simpa [Statement.line, words_indented, Drawn.words] using whole

theorem shows_edge_property (name : IsName key) (spelled : Spells shown value) :
    Shows
      (Statement.edge source target (text " [" ++ key ++ text "=" ++ shown ++ text "]")).line
      [.edge source target (some (key, value))] := by
  intro t ws h
  have property := words_bracketed name spelled (words_ended h)
  have whole := words_linked start finish (breaks_append (by decide) (by decide) _) property
  simpa [Statement.line, words_indented, Drawn.words] using whole

end Edges

end Lines

/-! ### Drawings -/

/-- A drawing with its title and the direction that all of them are laid out in. -/
def drawn (title : String) (ds : List Drawn) : Drawing :=
  ⟨text title, .setting (text "rankdir") (text "LR") :: ds⟩

theorem read_drawing (title : String) (name : IsName (text title)) {nodes edges : List Statement}
    {ds ds' : List Drawn} (shown : Shows (nodes.flatMap Statement.line) ds)
    (shown' : Shows (edges.flatMap Statement.line) ds') :
    read? (drawing title (nodes ++ edges)) = some (drawn title (ds ++ ds')) := by
  have h := shown.append shown'
  rw [← List.flatMap_append] at h
  generalize nodes ++ edges = ss, ds ++ ds' = ds at h ⊢
  let setting : Drawn := .setting (text "rankdir") (text "LR")
  have key : IsName (text "rankdir") := by decide
  have value : IsName (text "LR") := by decide
  have direction : Shows (text "  rankdir=LR;\n") [setting] :=
    shows_setting key (spells_name value)
  have empty : words [] = some [] := by rw [words]
  have ending : words (text "\x7d") = some [.closeBrace] := words_sign (by decide) empty
  have body := direction.append h _ _ ending
  generalize lines : text "  rankdir=LR;\n" ++ ss.flatMap Statement.line ++ text "\x7d" = rest
    at body
  have opened : words (text " \x7b\n" ++ rest) = some (.openBrace :: _) :=
    (words_gap (.inl rfl)).trans (words_sign (by decide) ((words_gap (.inr rfl)).trans body))
  have titled : words (text " " ++ _) = some (.id (text title) :: _) :=
    (words_gap (.inl rfl)).trans
      (spells_name name _ _ (breaks_append (by decide) (by decide) _) opened)
  have kind : IsBare (text "digraph") := by decide
  have whole := words_bare kind (breaks_append (by decide) (by decide) _) titled
  have keyword : bareWord (text "digraph") = .keyword (text "digraph") := by decide
  have start : text "digraph " = text "digraph" ++ text " " := by decide
  have behind : text " \x7b\n  rankdir=LR;\n" = text " \x7b\n" ++ text "  rankdir=LR;\n" := by
    decide
  have spelled : words (drawing title ss) = some (.keyword (text "digraph") :: .id (text title) ::
      .openBrace :: ((setting :: ds).flatMap Drawn.words ++ [.closeBrace])) := by
    simpa [drawing, start, behind, keyword, ← lines] using whole
  simp only [read?, spelled, statements_flatMap, Option.bind_eq_bind, Option.bind_some, if_pos]
  rfl

theorem isName_sanitize {b : UInt8} (plain : isIdentifierByte b) (letter : Bytes.isDigit b = false)
    (t : Bytes) : IsName (b :: ('_' : UInt8) :: sanitize t) := by
  have mark : ('_' : UInt8) ∈ (b :: ('_' : UInt8) :: sanitize t).map toLower :=
    List.mem_map.mpr ⟨'_', by simp, by decide⟩
  -- No keyword has an underscore.
  have keyword : ∀ word ∈ keywords, ('_' : UInt8) ∉ word := by decide
  refine ⟨⟨by simp, by simpa using letter, List.all_eq_true.mpr ?_⟩,
    fun listed => keyword _ (List.contains_iff_mem.mp listed) mark⟩
  simp only [List.forall_mem_cons]
  refine ⟨plain, by decide, ?_⟩
  intro c hc
  obtain ⟨d, -, rfl⟩ := List.mem_map.mp hc
  split
  · assumption
  · decide

theorem isName_moduleId (name : ModuleName) : IsName (moduleId name) :=
  isName_sanitize (b := 'm') (by decide) (by decide) _

theorem isName_functionId (f : FunctionName) : IsName (functionId f) :=
  isName_sanitize (b := 'c') (by decide) (by decide) _

/-! ### What is drawn -/

/-- Whether a module is drawn. -/
def Kept (prune : List Bytes) (name : ModuleName) : Prop := name.toText ∉ prune

theorem kept_iff {prune : List Bytes} {name : ModuleName} :
    ¬ isPruned prune name ↔ Kept prune name := by
  rw [isPruned, Kept, List.contains_iff_mem]

instance (prune : List Bytes) (name : ModuleName) : Decidable (Kept prune name) :=
  decidable_of_iff _ kept_iff

section

variable (prune : List Bytes) (a : Atlas)

/-- One statement for each module that is kept. -/
def drawnModules : List Drawn :=
  (a.modules.filter fun m => Kept prune m.name).map fun m =>
    .node (moduleId m.name) (text "label", m.name.toText)

/-- One statement for each edge between modules that are kept. -/
def drawnEdges : List Drawn :=
  (a.moduleEdges.filter fun e => Kept prune e.source ∧ Kept prune e.target).map fun e =>
    .edge (moduleId e.source) (moduleId e.target) (some (text "label", e.kind.name))

def drawnFunctions : List Drawn :=
  (a.functions.filter fun f => Kept prune f.module).map fun f =>
    .node (functionId f) (text "label", f.toText)

def drawnCalls : List Drawn :=
  (a.calls.filter fun c => Kept prune c.caller.module ∧ Kept prune c.callee.module).map fun c =>
    let style := match c.kind with
      | .sameModule => text "solid"
      | .remote => text "dashed"
    .edge (functionId c.caller) (functionId c.callee) (some (text "style", style))

def drawnModuleCalls : List Drawn :=
  (a.moduleCalls.filter fun c => Kept prune c.caller ∧ Kept prune c.callee).map fun c =>
    .edge (moduleId c.caller) (moduleId c.callee) none

theorem shows_moduleNodes :
    Shows ((moduleNodes prune a).flatMap Statement.line) (drawnModules prune a) := by
  refine shows_filter_map (fun m => ?_) (fun m => ?_) a.modules
  · simp [← kept_iff]
  · exact shows_node (isName_moduleId m.name) m.name.toText

theorem shows_moduleEdges :
    Shows ((moduleEdges prune a).flatMap Statement.line) (drawnEdges prune a) := by
  refine shows_filter_map (fun e => ?_) (fun e => ?_) a.moduleEdges
  · simp [← kept_iff]
  · have key : IsName (text "label") := by decide
    have shown := shows_edge_property (isName_moduleId e.source) (isName_moduleId e.target) key
      (spells_quoted e.kind.name)
    have start : text " [label=" = text " [" ++ (text "label" ++ text "=") := by decide
    simpa [start] using shown

theorem shows_functionNodes :
    Shows ((functionNodes prune a).flatMap Statement.line) (drawnFunctions prune a) := by
  refine shows_filter_map (fun f => ?_) (fun f => ?_) a.functions
  · simp [← kept_iff]
  · exact shows_node (isName_functionId f) f.toText

theorem shows_callEdges :
    Shows ((callEdges prune a).flatMap Statement.line) (drawnCalls prune a) := by
  refine shows_filter_map (fun c => ?_) (fun c => ?_) a.calls
  · simp [← kept_iff]
  · have key : IsName (text "style") := by decide
    have shown (style : Bytes) (name : IsName style) :=
      shows_edge_property (isName_functionId c.caller) (isName_functionId c.callee) key
        (spells_name name)
    cases c.kind with
    | sameModule => exact shown (text "solid") (by decide)
    | remote => exact shown (text "dashed") (by decide)

theorem shows_moduleCallEdges :
    Shows ((moduleCallEdges prune a).flatMap Statement.line) (drawnModuleCalls prune a) := by
  refine shows_filter_map (fun c => ?_) (fun c => ?_) a.moduleCalls
  · simp [← kept_iff]
  · exact shows_edge (isName_moduleId c.caller) (isName_moduleId c.callee)

/-- The nodes of a statement have names in letters, digits and underscores. -/
def Drawn.IsPlain (d : Drawn) : Prop := ∀ id ∈ d.nodes, ∀ b ∈ id, isIdentifierByte b

theorem isPlain_node {id : Bytes} (name : IsName id) (property : Bytes × Bytes) :
    (Drawn.node id property).IsPlain := by
  simpa [Drawn.IsPlain, Drawn.nodes] using List.all_eq_true.mp name.1.2.2

theorem isPlain_edge {source target : Bytes} (start : IsName source) (finish : IsName target)
    (property : Option (Bytes × Bytes)) : (Drawn.edge source target property).IsPlain := by
  have plain {name : Bytes} (h : IsName name) := List.all_eq_true.mp h.1.2.2
  simpa [Drawn.IsPlain, Drawn.nodes] using ⟨plain start, plain finish⟩

theorem isPlain_drawn {title : String} {ds ds' : List Drawn} (plain : ∀ d ∈ ds, d.IsPlain)
    (plain' : ∀ d ∈ ds', d.IsPlain) : ∀ d ∈ (drawn title (ds ++ ds')).statements, d.IsPlain := by
  have setting : (Drawn.setting (text "rankdir") (text "LR")).IsPlain := nofun
  exact List.forall_mem_cons.mpr ⟨setting, List.forall_mem_append.mpr ⟨plain, plain'⟩⟩

end

end CallAtlas.Dot
